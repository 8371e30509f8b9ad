import Interline.Config
import Interline.Project.FileTree

/-! # Where a configuration comes from

A configuration file that is named is taken as it is.  Otherwise it is looked for in the checked
directory and the directories above it, then in the user's own directory; without any file, the
defaults hold. -/

namespace Interline.CommandLine

/-- What a run knows of its surroundings: the working directory, the home directory, and what the
environment says about configuration. -/
structure Environment where
  directory : String
  home : Option String
  config : Option String
  configDirectory : Option String

/-- Where the configuration of a run comes from. -/
inductive ConfigSource
  | named (path : String)
  | project (path : String)
  | user (path : String)
  | default
deriving DecidableEq

namespace ConfigSource

/-- Names of configuration files in a project, the preferred one first. -/
def projectFiles : List String := ["linebreak-lint.toml", ".linebreak-lint.toml"]

/-- The name of the configuration file in the user's directory. -/
def userFile : String := "config.toml"

/-- A path and those that are left when one step after the other is taken off its end. -/
def ancestors (path : String) : List String := go (Path.components path).length path
where
  go : Nat → String → List String
    | 0, path => [path]
    | n + 1, path =>
      match Path.parent? path with
      | none => [path]
      | some parent => path :: go n parent

/-- The configuration file of a directory. -/
def fileIn? (t : FileTree) (directory : String) : Option String :=
  (projectFiles.map (Path.join directory)).find? t.isFile

/-- The nearest configuration file for a path to check. -/
def findProject? (t : FileTree) (directory start : String) : Option String := do
  let start := Path.absolute directory start
  let first ← if t.isFile start then Path.parent? start else some start
  (ancestors first).findSome? (fileIn? t)

/-- The directory with the user's configuration. -/
def userDirectory? (e : Environment) : Option String :=
  e.configDirectory.or (e.home.map fun home => Path.join home ".linebreak-lint")

/-- Where the configuration for a path to check comes from. -/
def resolve (t : FileTree) (e : Environment) (start : String) (named? : Option String) :
    ConfigSource :=
  match named? with
  | some path => .named path
  | none =>
    match findProject? t e.directory start with
    | some path => .project path
    | none =>
      match (userDirectory? e).map fun d => Path.join d userFile with
      | none => .default
      | some path => if t.isFile (Path.join e.directory path) then .user path else .default

/-- Every path at which a configuration for a path to check could be found. -/
def candidates (e : Environment) (start : String) (named? : Option String) : List String :=
  let directories := ancestors (Path.absolute e.directory start)
  let user := (userDirectory? e).map fun d => Path.join d userFile
  directories.flatMap (fun d => projectFiles.map (Path.join d)) ++
    (named?.toList ++ user.toList).map (Path.join e.directory)

/-- The file of a source. -/
def path? : ConfigSource → Option String
  | .named path => some path
  | .project path => some path
  | .user path => some path
  | .default => none

end ConfigSource
end Interline.CommandLine
