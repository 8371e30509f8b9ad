import Interline.Violation

/-! # Results of a run

All violations of a run, by file.  Files are told apart and ordered as paths, so two spellings of
one path are one file. -/

namespace Interline

structure LintResult where
  violations : List Violation
  filesChecked : Nat

namespace LintResult

def empty : LintResult := ⟨[], 0⟩

variable (r : LintResult)

def count (s : Severity) : Nat := r.violations.countP fun v => v.severity == s

def hasErrors : Bool := r.violations.any fun v => v.severity == .error

/-- Whether some violation reaches a threshold. -/
def hasViolationsAt (threshold : Severity) : Bool :=
  r.violations.any fun v => v.severity.atLeast threshold

def fixableCount : Nat := r.violations.countP fun v => v.replacement?.isSome

/-- Of neighbours that are the same path, keeps the first. -/
def dropRepeats : List String → List String
  | [] => []
  | path :: rest =>
    match dropRepeats rest with
    | [] => [path]
    | next :: others => if Path.same path next then path :: others else path :: next :: others

/-- Files with a fixable violation, in the order of paths, each once. -/
def fixableFiles : List String :=
  dropRepeats <|
    ((r.violations.filter fun v => v.replacement?.isSome).map fun v => v.location.file).mergeSort
      Path.le

/-- The edits proposed for a file, in the order of their reports. -/
def replacementsFor (file : String) : List Replacement :=
  (r.violations.filter fun v => Path.same v.location.file file).filterMap Violation.replacement?

/-- Order of violations by file, line and column. -/
def violationLe (a b : Violation) : Bool :=
  (((Path.compare a.location.file b.location.file).then
    (compare a.location.line b.location.line)).then
    (compare a.location.column b.location.column)).isLE

/-- The result for files whose violations are given in the order of the files. -/
def collect (files : List (List Violation)) : LintResult :=
  ⟨files.flatten.mergeSort violationLe, files.length⟩

end LintResult
end Interline
