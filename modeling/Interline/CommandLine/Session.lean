import Interline.Analyzer
import Interline.CommandLine.ConfigSource
import Interline.CommandLine.Report
import Interline.JavaScript.Model

/-! # Running a command

A command runs on a file tree: it prints lines, may change files, and ends well or badly.  A failure
names what was being done and the causes below it. -/

namespace Interline.CommandLine

/-- What went wrong: what was being done, and why, the nearest cause first. -/
structure Failure where
  message : String
  causes : List String
deriving DecidableEq

/-- How a command ended: the files as they are now, the lines printed, the failure if there was one,
and the exit status. -/
structure Ending where
  files : FileTree
  lines : List String
  failure : Option Failure
  status : Nat

/-- A command that printed lines and did not fail. -/
def Ending.well (files : FileTree) (lines : List String) (status : Nat) : Ending :=
  ⟨files, lines, none, status⟩

/-- A command that failed. -/
def Ending.badly (files : FileTree) (f : Failure) : Ending := ⟨files, [], some f, 1⟩

/-! ### Failures -/

/-- The causes that a failed analysis gives. -/
def analysisCauses (e : AnalysisError) : List String :=
  match e with
  | .read cause => [e.message, cause.message]
  | .rule _ cause => [e.message, cause.message]
  | _ => [e.message]

/-- The cause that a faulty policy gives. -/
def policyCause : PolicyError → String
  | .entry e => e.message
  | .config (.option key) => s!"Invalid option \x60{key}\x60"
  | .config .malformed => "Failed to parse config"

/-! ### Checking -/

/-- Loads the configuration of a source; paths are relative to the directory. -/
def loadConfig (files : FileTree) (directory : String) (source : ConfigSource) :
    Except Failure Config :=
  match source.path? with
  | none => .ok .default
  | some path =>
    let failed (causes : List String) : Except Failure Config :=
      .error ⟨s!"Failed to load config: {path}", causes⟩
    match files.read (Path.join directory path) with
    | .error e => failed [s!"Failed to read config file {path}: {e.message}", e.message]
    | .ok text =>
      match Config.parse text with
      | .ok c => .ok c
      | .error _ => failed ["Failed to parse config"]

/-- Makes the analyzer for a check. -/
def analyzerFor (directory : String) (o : CheckOptions) (c : Config) : Except Failure Analyzer := do
  match c.activeRules with
  | .error e => throw ⟨"Invalid rule configuration", [policyCause e]⟩
  | .ok rules =>
    let settings : AnalyzerSettings :=
      ⟨some o.path, some JavaScript.adapter, rules, o.exclude, c, false⟩
    match Analyzer.ofSettings directory settings with
    | .error e => throw ⟨"Failed to build analyzer", analysisCauses e⟩
    | .ok a => return a

/-- Analyzes the files; `doing` says what a failure interrupts. -/
def analyze (a : Analyzer) (files : FileTree) (doing : String) : Except Failure LintResult :=
  match a.run files with
  | .ok r => .ok r
  | .error e => .error ⟨s!"{doing} failed", analysisCauses e⟩

/-- Applies the fixes for some files below a directory.  Gives the files as they are after it, how
many were written, and what failed, if something did. -/
def applyFixes (base : String) (r : LintResult) :
    List String → FileTree → FileTree × Nat × Option Failure
  | [], files => (files, 0, none)
  | file :: rest, files =>
    let full := Path.join base file
    match files.read full with
    | .error e => (files, 0, some ⟨s!"Failed to read {full}", [e.message]⟩)
    | .ok text =>
      let outcome := Replacement.applyAll text (r.replacementsFor file)
      if !outcome.isChanged then applyFixes base r rest files
      else
        match files.write full outcome.text with
        | .error e => (files, 0, some ⟨s!"Failed to write {full}", [e.message]⟩)
        | .ok written =>
          let (files, count, failure) := applyFixes base r rest written
          (files, count + 1, failure)

/-- Prints a result; violations at the threshold make the status one. -/
def present (files : FileTree) (o : CheckOptions) (r : LintResult) : Ending :=
  .well files (resultLines r o.format) (if r.hasViolationsAt o.failOn then 1 else 0)

/-- Checks a path, and applies fixes if that is asked for. -/
def check (files : FileTree) (e : Environment) (config : Option String) (o : CheckOptions) : Ending :=
  let source := ConfigSource.resolve files e o.path config
  let prepared : Except Failure (Analyzer × LintResult) := do
    let a ← analyzerFor e.directory o (← loadConfig files e.directory source)
    return (a, ← analyze a files "Analysis")
  match prepared with
  | .error f => .badly files f
  | .ok (a, r) =>
    if !o.fix then present files o r
    else
      match applyFixes (a.baseDir files) r r.fixableFiles files with
      | (fixed, _, some f) => .badly fixed f
      | (fixed, 0, none) => present fixed o r
      | (fixed, _ + 1, none) =>
        match analyze a fixed "Analysis after fixing" with
        | .error f => .badly fixed f
        | .ok r => present fixed o r

/-! ### Starting a project -/

/-- The file that a new configuration is written to. -/
def newConfigFile : String := "linebreak-lint.toml"

/-- The configuration that a project starts with. -/
def newConfig : List String :=
  ["# linebreak-lint configuration", "", "[analyzer]",
    "# Glob patterns to exclude from analysis", "exclude = [",
    "    \"**/node_modules/**\",", "    \"**/dist/**\",", "]", "",
    "# Respect .gitignore files", "respect_gitignore = true", "",
    "[rules.linebreak-between-statements]", "enabled = true",
    "# severity = \"warning\"  # Override default severity (error)", "",
    "# Each entry is [requirement, previous, next]. Requirements: any, never,",
    "# always, blankline. Types are names from \x60linebreak-lint list-types\x60 or",
    "# lists of them. When several entries match, the last one wins.", "statements = [",
    "    [\"always\", \"*\", \"*\"],",
    "    [\"blankline\", [\"const\", \"let\", \"var\"], \"*\"],",
    "    [\"any\", [\"const\", \"let\", \"var\"], [\"const\", \"let\", \"var\"]],",
    "    [\"blankline\", \"*\", \"return\"],",
    "    [\"blankline\", \"directive\", \"*\"],",
    "    [\"any\", \"directive\", \"directive\"],", "]"]

/-- Writes a first configuration. -/
def start (files : FileTree) (e : Environment) (force : Bool) : Ending :=
  let full := Path.join e.directory newConfigFile
  if files.exists? full && !force then
    .badly files
      ⟨s!"Configuration file already exists at {newConfigFile}. Use --force to overwrite.", []⟩
  else
    match files.write full (String.join (newConfig.map (· ++ "\n"))) with
    | .error err => .badly files ⟨s!"Failed to write {newConfigFile}", [err.message]⟩
    | .ok written =>
      .well written [s!"Created {newConfigFile}", "", "Next steps:",
        "  1. Edit the \x60statements\x60 list to match your style",
        "  2. Run: linebreak-lint check --fix"] 0

/-- Runs a command. -/
def run (files : FileTree) (e : Environment) (a : Arguments) : Ending :=
  match a.command with
  | .check o => check files e a.config o
  | .listTypes => .well files (nameLines LinebreakRule.name LinebreakRule.code) 0
  | .init force => start files e force

end Interline.CommandLine
