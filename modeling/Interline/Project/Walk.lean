import Interline.Project.FileTree
import Interline.Project.IgnoreRule

/-! # Files below a root

All files in a directory and the directories in it, except those that ignore rules take out.  Rules
come from three files of every directory from the entry's own up to the root of the tree: one for
all tools, and two that count only inside of a repository.  Of the files of one kind the nearest
that says something decides, and the kinds come one after the other. -/

namespace Interline

/-- The ignore rules in the files of one directory, which lies at the given depth. -/
structure IgnoreLevel where
  depth : Nat
  plain : IgnoreFile
  shared : IgnoreFile
  «local» : IgnoreFile
  isRepository : Bool

namespace IgnoreLevel

/-- The lines of a file as far as they are text; a carriage return before a line end does not
count. -/
def lines (content : ByteArray) : List String :=
  let chop (line : List UInt8) : List UInt8 :=
    match line.reverse with
    | 13 :: back => back.reverse
    | _ => line
  let (last, finished) := content.toList.foldl (fun (line, finished) b =>
    if b = 10 then ([], chop line.reverse :: finished) else (b :: line, finished))
    (([] : List UInt8), ([] : List (List UInt8)))
  let all := (if last.isEmpty then finished else last.reverse :: finished).reverse
  let texts := all.map fun line => String.fromUTF8? ⟨line.toArray⟩
  (texts.takeWhile Option.isSome).filterMap id

/-- The rules in a file that may be missing. -/
def fileAt (directory : FileTree) (names : List String) : IgnoreFile :=
  match directory.at? names with
  | some (.file content) => .ofLines (lines content)
  | _ => .empty

/-- The rules in the files of a directory. -/
def ofDirectory (depth : Nat) (directory : FileTree) : IgnoreLevel where
  depth := depth
  plain := fileAt directory [".ignore"]
  shared := fileAt directory [".gitignore"]
  «local» := fileAt directory [".git", "info", "exclude"]
  isRepository := (directory.child? ".git").isSome

/-- A level without rules. -/
def empty (depth : Nat) : IgnoreLevel := ⟨depth, .empty, .empty, .empty, false⟩

def isWellFormed (l : IgnoreLevel) : Bool :=
  l.plain.isWellFormed && l.shared.isWellFormed && l.local.isWellFormed

/-- The levels of the innermost repository, given all levels with the nearest first; there are none
outside of repositories. -/
def ofRepository (levels : List IgnoreLevel) : List IgnoreLevel :=
  match levels.dropWhile fun l => !l.isRepository with
  | [] => []
  | top :: _ => (levels.takeWhile fun l => !l.isRepository) ++ [top]

/-- What the nearest file of one kind says about the entry with the given names. -/
def verdict? (kind : IgnoreLevel → IgnoreFile) (names : List String) (isDirectory : Bool)
    (levels : List IgnoreLevel) : Option Bool :=
  levels.findSome? fun l => (kind l).verdict? ("/".intercalate (names.drop l.depth)) isDirectory

/-- Whether the entry with the given names is ignored. -/
def ignores (levels : List IgnoreLevel) (names : List String) (isDirectory : Bool) : Bool :=
  let git := ofRepository levels
  ((verdict? plain names isDirectory levels).or
    ((verdict? shared names isDirectory git).or
      (verdict? «local» names isDirectory git))).getD false

end IgnoreLevel

namespace FileTree

/-- The rules of a directory, if they are to be respected. -/
def levelOf (respect : Bool) (names : List String) (directory : FileTree) : IgnoreLevel :=
  if respect then .ofDirectory names.length directory else .empty names.length

mutual

/-- The paths of all files below an entry that are not ignored.  The entry is given by its names and
by its path. -/
def walk (respect : Bool) (levels : List IgnoreLevel) (names : List String) (path : String) :
    FileTree → List String
  | .file _ => [path]
  | .dir entries =>
    walkAll respect (levelOf respect names (.dir entries) :: levels) names path entries

def walkAll (respect : Bool) (levels : List IgnoreLevel) (names : List String) (path : String) :
    List (String × FileTree) → List String
  | [] => []
  | (name, t) :: rest =>
    let inner := names ++ [name]
    (if IgnoreLevel.ignores levels inner t.isDir then []
      else walk respect levels inner (Path.join path name) t) ++
      walkAll respect levels names path rest

end

/-- The levels of the directories above the one with the given names, the nearest first. -/
def levelsAbove (t : FileTree) (respect : Bool) (names : List String) : List IgnoreLevel :=
  ((List.range names.length).map fun n =>
    levelOf respect (names.take n) ((t.at? (names.take n)).getD .empty)).reverse

/-- The paths of all files at or below a root.  The root itself is never ignored; it must be there,
and the rules above it must be well formed. -/
def walkFrom? (t : FileTree) (respect : Bool) (root : String) : Option (List String) :=
  match t.locate root with
  | .error _ => none
  | .ok names =>
    match t.at? names with
    | none => none
    | some (.file _) => some [root]
    | some directory =>
      let above := t.levelsAbove respect names
      if above.all IgnoreLevel.isWellFormed then some (walk respect above names root directory)
      else none

end FileTree
end Interline
