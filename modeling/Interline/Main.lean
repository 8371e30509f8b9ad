import Interline.CommandLine.Help
import Interline.CommandLine.Session

/-! # The program

Standard input lists the files of the project, one path to a line.  They are read together with
the files that could hold a configuration; the command runs on what was read, and the files that
it changed are written back. -/

namespace Interline.CommandLine

/-- The lines of an input up to its end. -/
partial def inputLines (input : IO.FS.Stream) : IO (List String) := do
  let line ← input.getLine
  if line.isEmpty then return []
  let path := String.ofList (line.toList.filter fun c => c != '\n' && c != '\r')
  return path :: (← inputLines input)

/-- The files at some paths, as far as they can be read. -/
def readFiles (directory : String) (paths : List String) : IO FileTree := do
  let start := FileTree.empty.put (Path.names directory) .empty
  paths.foldlM (fun t path => do
    let full := Path.absolute directory path
    try
      return t.put (Path.names full) (.file (← IO.FS.readBinFile full))
    catch _ => return t) start

/-- Prints what went wrong. -/
def printFailure (f : Failure) : IO Unit := do
  IO.eprintln s!"Error: {f.message}"
  unless f.causes.isEmpty do
    IO.eprintln "\nCaused by:"
    for cause in f.causes do
      IO.eprintln s!"    {cause}"

/-- The surroundings of this run. -/
def environment : IO Environment := do
  return {
    directory := (← IO.getEnv "PWD").getD "/"
    home := ← IO.getEnv "HOME"
    config := ← IO.getEnv "LINEBREAK_LINT_CONFIG"
    configDirectory := ← IO.getEnv "LINEBREAK_LINT_CONFIG_DIR" }

/-- Runs a command on the files that standard input lists. -/
def execute (e : Environment) (a : Arguments) : IO UInt32 := do
  let start := match a.command with
    | .check o => o.path
    | _ => "."
  let listed ← inputLines (← IO.getStdin)
  let files ← readFiles e.directory (ConfigSource.candidates e start a.config ++ listed)
  let ending := run files e a
  for (names, content) in files.changedSince ending.files do
    IO.FS.writeBinFile ("/" ++ "/".intercalate names) content
  for line in ending.lines do
    IO.println line
  match ending.failure with
  | some f => printFailure f
  | none => pure ()
  return ending.status.toUInt32

end Interline.CommandLine

open Interline.CommandLine in
/-- Runs the program on its arguments. -/
def main (args : List String) : IO UInt32 := do
  let e ← environment
  match Request.ofWords e.config args with
  | .misuse =>
    for line in Page.overview.lines do
      IO.eprintln line
    return 2
  | .page p =>
    for line in p.lines do
      IO.println line
    return 0
  | .run a => execute e a
