import Interline.Glob

/-! # Ignore rules

The lines of a file that says what to pass over.  The last line that matches decides; an exclamation
mark in front keeps what matches, a slash at the end restricts a line to directories, and a slash in
front or inside ties it to the directory of the file.  Stars and question marks do not match
separators, and paths are matched byte by byte. -/

namespace Interline

/-- A part of a written pattern. -/
inductive IgnoreToken
  | char (c : Char)
  | any
  | star
  | «class» (set : CharSet)
  | directoriesFirst
  | directoriesBetween
  | directoriesLast
  | choice (branches : List (List IgnoreToken))

namespace IgnoreToken

mutual

/-- The wildcard patterns that a token stands for, any of which may match. -/
def patterns : IgnoreToken → List (List Wildcard)
  | .char c => [[.char (.one c)]]
  | .any => [[.char .inNames]]
  | .star => [[.run .inNames]]
  | .class set => [[.char set]]
  | .directoriesFirst => [[.directories]]
  | .directoriesBetween => [[.char (.one '/'), .directories]]
  | .directoriesLast => [[.char (.one '/'), .run .all]]
  | .choice branches =>
    match patternsOfBranches branches with
    | [] => [[]]
    | ps => ps

/-- The patterns of tokens one after the other. -/
def patternsOfAll : List IgnoreToken → List (List Wildcard)
  | [] => [[]]
  | t :: ts => (patterns t).flatMap fun p => (patternsOfAll ts).map (p ++ ·)

/-- The patterns of the branches of a choice; empty branches do not count. -/
def patternsOfBranches : List (List IgnoreToken) → List (List Wildcard)
  | [] => []
  | b :: bs => (patternsOfAll b).filter (!·.isEmpty) ++ patternsOfBranches bs

end

/-- The patterns of a whole line; two stars alone match everything. -/
def patternsOfLine : List IgnoreToken → List (List Wildcard)
  | [.directoriesFirst] => [[.run .all]]
  | ts => patternsOfAll ts

end IgnoreToken

/-! ### Reading a pattern -/

/-- A choice that has been opened: what stands before it and its branches so far, both backwards. -/
structure OpenChoice where
  before : List IgnoreToken
  branches : List (List IgnoreToken)

namespace IgnoreToken

/-- The ranges in a class; a dash at either end stands for itself, and a range that runs backwards
is an error. -/
def ranges? : Bool → List (Char × Char) → List Char → Option (List (Char × Char))
  | true, done, [] => some (('-', '-') :: done)
  | false, done, [] => some done
  | true, (first, _) :: done, c :: cs =>
    if c < first then none else ranges? false ((first, c) :: done) cs
  | _, [], c :: cs => ranges? false [(c, c)] cs
  | false, done, c :: cs =>
    if c = '-' then ranges? true done cs else ranges? false ((c, c) :: done) cs

/-- Splits off the mark that negates a class. -/
def negation : List Char → Bool × List Char
  | '!' :: rest => (true, rest)
  | '^' :: rest => (true, rest)
  | cs => (false, cs)

theorem negation_length (cs : List Char) : (negation cs).2.length ≤ cs.length := by
  unfold negation
  split <;> simp

/-- Replaces the separator in front of two stars, which they take in. -/
def afterSeparator (isLast : Bool) : List IgnoreToken → List IgnoreToken
  | .directoriesFirst :: done => .directoriesFirst :: done
  | .directoriesLast :: done => .directoriesLast :: done
  | _ :: done => (if isLast then .directoriesLast else .directoriesBetween) :: done
  | [] => []

/-- Reads a pattern.  The state is the text's last character so far, whether an opening bracket was
found to have no partner, the tokens so far, backwards, and the choices around them. -/
def read? (last : Option Char) (plainBrackets : Bool) (done : List IgnoreToken)
    (around : List OpenChoice) (cs : List Char) : Option (List IgnoreToken) :=
  match cs with
  | [] => if around.isEmpty then some done.reverse else none
  | '?' :: rest => read? (some '?') plainBrackets (.any :: done) around rest
  | '*' :: '*' :: rest =>
    match done, rest with
    | [], [] => read? (some '*') plainBrackets [.directoriesFirst] around []
    | [], '/' :: rest => read? (some '/') plainBrackets [.directoriesFirst] around rest
    | done, rest =>
      if last = some '/' && !done.isEmpty then
        match rest with
        | [] => read? (some '*') plainBrackets (afterSeparator true done) around []
        | '/' :: rest => read? (some '/') plainBrackets (afterSeparator false done) around rest
        | c :: rest =>
          if (c = ',' || c = '\x7d') && !around.isEmpty then
            read? (some '*') plainBrackets (afterSeparator true done) around (c :: rest)
          else read? (some '*') plainBrackets (.star :: .star :: done) around (c :: rest)
      else read? (some '*') plainBrackets (.star :: .star :: done) around rest
  | '*' :: rest => read? (some '*') plainBrackets (.star :: done) around rest
  | '[' :: rest =>
    if plainBrackets then read? (some '[') true (.char '[' :: done) around rest
    else
      match _hc : Glob.members? (negation rest).2 with
      | some (members, after) =>
        match ranges? false [] members with
        | some ranges =>
          read? (some ']') false (.class ⟨(negation rest).1, ranges⟩ :: done) around after
        | none => none
      | none =>
        match ranges? false [] (negation rest).2 with
        | some _ => read? (some '[') true (.char '[' :: done) around rest
        | none => none
  | '\x7b' :: rest => read? (some '\x7b') plainBrackets [] (⟨done, []⟩ :: around) rest
  | '\x7d' :: rest =>
    match around with
    | [] => none
    | opened :: around =>
      let branches := (done.reverse :: opened.branches).reverse
      read? (some '\x7d') plainBrackets (.choice branches :: opened.before) around rest
  | ',' :: rest =>
    match around with
    | [] => read? (some ',') plainBrackets (.char ',' :: done) [] rest
    | opened :: around =>
      read? (some ',') plainBrackets []
        (⟨opened.before, done.reverse :: opened.branches⟩ :: around) rest
  | ['\\'] => none
  | '\\' :: c :: rest => read? (some c) plainBrackets (.char c :: done) around rest
  | c :: rest => read? (some c) plainBrackets (.char c :: done) around rest
termination_by cs.length
decreasing_by
  all_goals
    first
      | (have hlt := Glob.members?_length _hc
         have hle := negation_length rest
         simp only [List.length_cons]
         omega)
      | (simp only [List.length_cons, List.length_nil]; omega)

end IgnoreToken

/-! ### Rules -/

/-- A line: the patterns that it stands for, whether it keeps what matches, and whether it is about
directories only. -/
structure IgnoreRule where
  patterns : List (List Wildcard)
  keeps : Bool
  onlyDirectories : Bool
deriving DecidableEq

namespace IgnoreRule

/-- The bytes of a text, as characters. -/
def bytes (text : String) : List Char :=
  text.toUTF8.toList.map fun b => Char.ofNat b.toNat

/-- White space of Unicode. -/
def isBlank (c : Char) : Bool :=
  let n := c.toNat
  (9 ≤ n && n ≤ 13) || n == 32 || n == 0x85 || n == 0xA0 || n == 0x1680 ||
    (0x2000 ≤ n && n ≤ 0x200A) || n == 0x2028 || n == 0x2029 || n == 0x202F || n == 0x205F ||
    n == 0x3000

/-- Drops blanks at the end, unless the last one is escaped. -/
def trimEnd (cs : List Char) : List Char :=
  match cs.reverse with
  | ' ' :: '\\' :: _ => cs
  | back => (back.dropWhile isBlank).reverse

/-- Whether a pattern starts with two stars that stand for directories. -/
def startsWithDirectories (cs : List Char) : Bool :=
  cs == ['*', '*'] || ['*', '*', '/'].isPrefixOf cs

/-- The rule of a line that is neither empty nor a comment; none if its pattern is malformed. -/
def ofPattern? (line : List Char) : Option IgnoreRule := do
  let (keeps, anchored, body) := match line with
    | '\\' :: '!' :: rest => (false, false, '!' :: rest)
    | '\\' :: '#' :: rest => (false, false, '#' :: rest)
    | '!' :: '/' :: rest => (true, true, rest)
    | '!' :: rest => (true, false, rest)
    | '/' :: rest => (false, true, rest)
    | cs => (false, false, cs)
  let (onlyDirectories, body) := match body.reverse with
    | '/' :: '\\' :: back => (true, back.reverse)
    | '/' :: back => (true, back.reverse)
    | _ => (false, body)
  let body := if !anchored && !body.contains '/' && !startsWithDirectories body then
      ['*', '*', '/'] ++ body
    else body
  let body := if ['*', '*', '/'].isPrefixOf body.reverse then body ++ ['/', '*'] else body
  let tokens ← IgnoreToken.read? none false [] [] (bytes (String.ofList body))
  return ⟨IgnoreToken.patternsOfLine tokens, keeps, onlyDirectories⟩

/-- Whether a rule is about an entry with the given path below the directory of its file. -/
def isAbout (r : IgnoreRule) (path : String) (isDirectory : Bool) : Bool :=
  (!r.onlyDirectories || isDirectory) && r.patterns.any fun p => Wildcard.accepts p (bytes path)

end IgnoreRule

/-- The rules of a file in their order, and whether all of its lines are well formed. -/
structure IgnoreFile where
  rules : List IgnoreRule
  isWellFormed : Bool

namespace IgnoreFile

def empty : IgnoreFile := ⟨[], true⟩

/-- Reads a file line by line; malformed lines give no rule. -/
def ofLines (lines : List String) : IgnoreFile :=
  let start (cs : List Char) : List Char := cs.dropWhile (· == '\ufeff')
  let texts : List (List Char) := match lines with
    | first :: rest => start first.toList :: rest.map String.toList
    | [] => []
  let patterns := ((texts.filter fun cs => cs.head? != some '#').map IgnoreRule.trimEnd).filter
    fun cs => !cs.isEmpty
  let rules := patterns.map IgnoreRule.ofPattern?
  ⟨rules.filterMap id, rules.all Option.isSome⟩

/-- What the file says about an entry: whether to ignore it. -/
def verdict? (f : IgnoreFile) (path : String) (isDirectory : Bool) : Option Bool :=
  (f.rules.reverse.find? fun r => r.isAbout path isDirectory).map fun r => !r.keeps

end IgnoreFile
end Interline
