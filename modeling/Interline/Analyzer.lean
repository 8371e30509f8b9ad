import Interline.Config
import Interline.Glob
import Interline.LintResult
import Interline.Project.Walk

/-! # Analysis of a project

An analyzer knows what to look at and which rules to apply.  It finds the files of a project, makes
source models of them, and collects what the rules find. -/

namespace Interline

/-- Why an analysis could not be done. -/
inductive AnalysisError
  | read (e : FileError)
  | walk
  | notProgram (path : String)
  | rule (path : String) (e : ModelError)
  | glob
  | noAdapter
deriving DecidableEq

/-- The text shown for a failed analysis. -/
def AnalysisError.message : AnalysisError → String
  | .read e => s!"IO error: {e.message}"
  | .walk => "Failed to walk directory"
  | .notProgram path => s!"Parse error in {path}"
  | .rule path e => s!"Rule \x60{LinebreakRule.name}\x60 failed on {path}: {e.message}"
  | .glob => "Invalid glob pattern"
  | .noAdapter => "No source parser configured"

/-- What an analyzer is made from. -/
structure AnalyzerSettings where
  root : Option String
  adapter : Option Adapter
  rules : List LinebreakRule
  exclude : List String
  config : Config
  failOnError : Bool

structure Analyzer where
  root : String
  adapter : Adapter
  rules : List LinebreakRule
  exclude : List Glob
  config : Config
  failOnError : Bool

namespace Analyzer

/-- Makes an analyzer that works in a directory. -/
def ofSettings (directory : String) (s : AnalyzerSettings) : Except AnalysisError Analyzer := do
  match s.adapter with
  | none => throw .noAdapter
  | some adapter =>
    match (s.exclude ++ s.config.analyzer.exclude).mapM Glob.parse? with
    | none => throw .glob
    | some exclude =>
      return {
        root := Path.join directory (s.root.getD s.config.analyzer.root)
        adapter := adapter
        rules := s.rules
        exclude := exclude
        config := s.config
        failOnError := s.failOnError }

variable (a : Analyzer)

/-- The directory that reported paths are relative to: the root, or the one that holds it. -/
def baseDir (t : FileTree) : String :=
  if t.isFile a.root then (Path.parent? a.root).getD a.root else a.root

/-- Whether the adapter is for files with this path. -/
def handles (path : String) : Bool :=
  (Path.extension? path).any a.adapter.extensions.contains

/-- Whether a file is left out, by its path or by the one relative to the base directory. -/
def excludes (base path : String) : Bool :=
  a.exclude.any fun g => g.accepts (relativePath base path) || g.accepts path

/-- The files to analyze, in the order of their paths. -/
def files (t : FileTree) : Except AnalysisError (List String) := do
  match t.walkFrom? a.config.analyzer.respectGitignore a.root with
  | none => throw .walk
  | some paths =>
    let base := a.baseDir t
    return (paths.filter fun p => a.handles p && !a.excludes base p).mergeSort Path.le

/-- The severity from the configuration, in place of the rule's own. -/
def withSeverity (v : Violation) : Violation :=
  match a.config.ruleSeverity? LinebreakRule.name with
  | some s => { v with severity := s }
  | none => v

/-- What the rules find in one text. -/
def checkText (base path text : String) : Except AnalysisError (List Violation) := do
  match a.adapter.model? text with
  | none => throw (.notProgram path)
  | some m =>
    if !a.config.isRuleEnabled LinebreakRule.name then return []
    else
      let found ← a.rules.mapM fun r =>
        match r.check (relativePath base path) m with
        | .ok vs => .ok (vs.map a.withSeverity)
        | .error e => .error (.rule path e)
      return found.flatten

/-- What the rules find in one file; none for a file that is passed over because it is no program. -/
def checkFile (t : FileTree) (path : String) : Except AnalysisError (Option (List Violation)) := do
  match t.read path with
  | .error e => throw (.read e)
  | .ok text =>
    match a.checkText (a.baseDir t) path text with
    | .ok vs => return some vs
    | .error (.notProgram path) => if a.failOnError then throw (.notProgram path) else return none
    | .error e => throw e

/-- Analyzes all files of a project. -/
def run (t : FileTree) : Except AnalysisError LintResult := do
  let checked ← (← a.files t).mapM (a.checkFile t)
  return .collect (checked.filterMap id)

end Analyzer
end Interline
