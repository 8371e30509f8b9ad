import Interline.Path

/-! # File trees

The files and directories of a machine, without links.  A path from the root is followed step by
step: every step but the last must be a directory, and two dots lead to the directory that really
holds the current one. -/

namespace Interline

/-- A file with its bytes, or a directory with its entries. -/
inductive FileTree
  | file (content : ByteArray)
  | dir (entries : List (String × FileTree))

/-- Why a file could not be read or written. -/
inductive FileError
  | notFound
  | notDirectory
  | isDirectory
  | notText
deriving DecidableEq

/-- The text shown for a failed access. -/
def FileError.message : FileError → String
  | .notFound => "No such file or directory (os error 2)"
  | .notDirectory => "Not a directory (os error 20)"
  | .isDirectory => "Is a directory (os error 21)"
  | .notText => "stream did not contain valid UTF-8"

namespace FileTree

/-- A tree without files. -/
def empty : FileTree := .dir []

/-- The entry of a directory with the given name. -/
def child? (name : String) : FileTree → Option FileTree
  | .file _ => none
  | .dir entries => entries.lookup name

/-- What stands at the end of the given names. -/
def at? (t : FileTree) : List String → Option FileTree
  | [] => some t
  | name :: rest => (t.child? name).bind fun c => at? c rest

def isDir : FileTree → Bool
  | .dir _ => true
  | .file _ => false

/-! ### Paths in a tree -/

/-- Follows the pieces of a path from a directory that is given by its names. -/
def follow (t : FileTree) : List String → List (List Char) → Except FileError (List String)
  | here, [] => if (t.at? here).isSome then .ok here else .error .notFound
  | here, piece :: rest =>
    match t.at? here with
    | none => .error .notFound
    | some (.file _) => .error .notDirectory
    | some (.dir _) =>
      match PathComponent.ofPiece piece with
      | some (.name name) => follow t (here ++ [name]) rest
      | some .up => follow t here.dropLast rest
      | _ => follow t here rest

/-- The names that lead from the root to the end of an absolute path. -/
def locate (t : FileTree) (path : String) : Except FileError (List String) :=
  match Path.lead path.toList with
  | (some .root, pieces) => t.follow [] pieces
  | _ => .error .notFound

/-- What stands at an absolute path. -/
def entry? (t : FileTree) (path : String) : Option FileTree :=
  match t.locate path with
  | .ok names => t.at? names
  | .error _ => none

def exists? (t : FileTree) (path : String) : Bool := (t.entry? path).isSome

def isFile (t : FileTree) (path : String) : Bool :=
  match t.entry? path with
  | some (.file _) => true
  | _ => false

def isDirectory (t : FileTree) (path : String) : Bool :=
  match t.entry? path with
  | some (.dir _) => true
  | _ => false

/-- The text of the file at an absolute path. -/
def read (t : FileTree) (path : String) : Except FileError String := do
  let names ← t.locate path
  match t.at? names with
  | none => throw .notFound
  | some (.dir _) => throw .isDirectory
  | some (.file content) =>
    match String.fromUTF8? content with
    | some text => return text
    | none => throw .notText

/-! ### Changes -/

/-- Puts an entry into a list of entries, in place of one with the same name. -/
def setEntry (name : String) (t : FileTree) : List (String × FileTree) → List (String × FileTree)
  | [] => [(name, t)]
  | (other, c) :: rest =>
    if other = name then (name, t) :: rest else (other, c) :: setEntry name t rest

/-- Puts something at the end of the given names; directories on the way are made. -/
def put (t : FileTree) (names : List String) (new : FileTree) : FileTree :=
  match names with
  | [] => new
  | name :: rest =>
    let entries := match t with
      | .dir entries => entries
      | .file _ => []
    .dir (setEntry name (put ((entries.lookup name).getD empty) rest new) entries)

/-- Writes a text to the file at an absolute path; its directory must be there. -/
def write (t : FileTree) (path text : String) : Except FileError FileTree := do
  let parent ← t.locate ((Path.parent? path).getD path)
  match Path.fileName? path, (t.at? parent).map isDir with
  | some name, some true =>
    let names := parent ++ [name]
    if (t.at? names).any isDir then throw .isDirectory
    else return t.put names (.file text.toUTF8)
  | none, some true => throw .isDirectory
  | _, some false => throw .notDirectory
  | _, none => throw .notFound

mutual

/-- All files with the names that lead to them, starting with the given ones. -/
def filesBelow (names : List String) : FileTree → List (List String × ByteArray)
  | .file content => [(names, content)]
  | .dir entries => filesOfAll names entries

def filesOfAll (names : List String) : List (String × FileTree) → List (List String × ByteArray)
  | [] => []
  | (name, t) :: rest => filesBelow (names ++ [name]) t ++ filesOfAll names rest

end

/-- All files of a tree with the names that lead to them. -/
def files (t : FileTree) : List (List String × ByteArray) := t.filesBelow []

/-- The files of a tree that were not in an earlier one, or not with these bytes. -/
def changedSince (before after : FileTree) : List (List String × ByteArray) :=
  after.files.filter fun (names, content) =>
    match before.at? names with
    | some (.file old) => old != content
    | _ => true

end FileTree
end Interline
