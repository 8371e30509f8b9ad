/-! # Paths

A path is the text that names a file, compared by its components: repeated separators, a separator
at the end and dots between components make no difference, while a dot in front does.  `components`
is the view by which paths are equal, ordered and taken apart; `strip?`, `parent?` and `join` keep the
text as it was written. -/

namespace Interline

/-- One step of a path. -/
inductive PathComponent
  | root
  | here
  | up
  | name (name : String)
deriving DecidableEq

namespace PathComponent

/-- The root comes first, then a dot, then two dots, then names in the order of their characters. -/
def compare : PathComponent → PathComponent → Ordering
  | .name a, .name b => Ord.compare a b
  | a, b => Ord.compare (rank a) (rank b)
where
  rank : PathComponent → Nat
    | .root => 0
    | .here => 1
    | .up => 2
    | .name _ => 3

/-- The component that a piece between separators stands for after the first one; empty pieces and
dots stand for nothing. -/
def ofPiece : List Char → Option PathComponent
  | [] => none
  | ['.'] => none
  | ['.', '.'] => some .up
  | cs => some (.name (String.ofList cs))

end PathComponent

namespace Path

/-- Cuts at every separator. -/
def pieces : List Char → List (List Char)
  | [] => [[]]
  | c :: cs =>
    if c = '/' then [] :: pieces cs
    else match pieces cs with
      | piece :: rest => (c :: piece) :: rest
      | [] => [[c]]

/-- Whether the path starts at the root. -/
def isAbsolute (path : String) : Bool := path.toList.head? == some '/'

/-- The steps of a path. -/
def components (path : String) : List PathComponent :=
  let steps := (pieces path.toList).filterMap PathComponent.ofPiece
  if isAbsolute path then .root :: steps
  else match pieces path.toList with
    | ['.'] :: _ => .here :: steps
    | _ => steps

/-- The names among the steps of a path. -/
def names (path : String) : List String :=
  (components path).filterMap fun
    | .name n => some n
    | _ => none

/-- Order of two lists of steps, a shorter one before its extensions. -/
def compareSteps : List PathComponent → List PathComponent → Ordering
  | [], [] => .eq
  | [], _ :: _ => .lt
  | _ :: _, [] => .gt
  | a :: as, b :: bs => (a.compare b).then (compareSteps as bs)

def compare (a b : String) : Ordering := compareSteps (components a) (components b)

/-- Whether two texts name the same path. -/
def same (a b : String) : Bool := components a == components b

/-- Whether one path comes before another or is the same. -/
def le (a b : String) : Bool := (compare a b).isLE

/-- The steps in front that are no pieces between separators, and the pieces behind them. -/
def lead (cs : List Char) : Option PathComponent × List (List Char) :=
  match cs with
  | '/' :: rest => (some .root, pieces rest)
  | _ =>
    match pieces cs with
    | ['.'] :: rest => (some .here, rest)
    | ps => (none, ps)

/-- Writes pieces with separators between them. -/
def unpieces (ps : List (List Char)) : List Char := ['/'].intercalate ps

/-- Whether a piece stands for a step. -/
def isStep (piece : List Char) : Bool := (PathComponent.ofPiece piece).isSome

/-- Drops the pieces at the end that stand for nothing. -/
def trimEnd (ps : List (List Char)) : List (List Char) :=
  (ps.reverse.dropWhile fun p => !isStep p).reverse

/-- Drops the first `n` steps with everything before the step that follows. -/
def dropSteps (n : Nat) (ps : List (List Char)) : List (List Char) :=
  let rest := ps.dropWhile fun p => !isStep p
  match n with
  | 0 => rest
  | n + 1 => dropSteps n (rest.drop 1)

/-- The text of a path whose parts are given. -/
def ofParts : Option PathComponent → List (List Char) → String
  | some .root, ps => String.ofList ('/' :: unpieces ps)
  | some .here, ps => String.ofList (unpieces (['.'] :: ps))
  | _, ps => String.ofList (unpieces ps)

/-- The rest of a path below a base, if the base's steps come first in it. -/
def strip? (path base : String) : Option String :=
  let steps := components base
  if steps.isPrefixOf (components path) then
    let (first, ps) := lead path.toList
    match steps.length, first with
    | 0, _ => some (ofParts first (trimEnd ps))
    | n + 1, some _ => some (ofParts none (dropSteps n (trimEnd ps)))
    | n, none => some (ofParts none (dropSteps n (trimEnd ps)))
  else none

/-- Appends a path to a base; an absolute one replaces it. -/
def join (base path : String) : String :=
  if isAbsolute path then path
  else if base.isEmpty || base.toList.getLast? == some '/' then base ++ path
  else base ++ "/" ++ path

/-- The path without its last step; the root has none to drop. -/
def parent? (path : String) : Option String :=
  let (first, ps) := lead path.toList
  match trimEnd ps, first with
  | [], some .here => some ""
  | [], _ => none
  | ps, first => some (ofParts first (trimEnd ps.dropLast))

/-- The last step of a path, if it is a name. -/
def fileName? (path : String) : Option String :=
  match (components path).getLast? with
  | some (.name n) => some n
  | _ => none

/-- What follows the last dot of a file's name; a dot in front counts for nothing. -/
def extension? (path : String) : Option String := do
  let name ← fileName? path
  let cs := name.toList.reverse
  let (suffix, rest) := (cs.takeWhile (· ≠ '.'), cs.dropWhile (· ≠ '.'))
  if rest.length ≤ 1 then none else some (String.ofList suffix.reverse)

/-- A path from the root for one that may be relative to a directory: dots are dropped, steps
upwards are kept, and so is a separator at the end. -/
def absolute (directory path : String) : String :=
  let extend (base : String) : PathComponent → String
    | .root => "/"
    | .here => base
    | .up => join base ".."
    | .name n => join base n
  let base := if isAbsolute path then "/" else directory
  let full := (components path).foldl extend base
  if path.toList.getLast? == some '/' then join full "" else full

end Path
end Interline
