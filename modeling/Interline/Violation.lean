import Interline.Path
import Interline.Replacement
import Interline.Span

/-! # Violations

What a rule found in a file: where, how bad, and what to do about it. -/

namespace Interline

/-- How bad a violation is. -/
inductive Severity
  | info
  | warning
  | error
deriving DecidableEq

namespace Severity

def name : Severity → String
  | .info => "info"
  | .warning => "warning"
  | .error => "error"

/-- The severity of a name. -/
def ofName? (s : String) : Option Severity :=
  [Severity.info, .warning, .error].find? fun v => v.name == s

def rank : Severity → Nat
  | .info => 0
  | .warning => 1
  | .error => 2

/-- Whether a severity reaches a threshold. -/
def atLeast (s threshold : Severity) : Bool := decide (threshold.rank ≤ s.rank)

end Severity

/-- A place in a file; line and column are counted from one. -/
structure Location where
  file : String
  line : Nat
  column : Nat
  offset : Nat
  length : Nat
deriving DecidableEq

namespace Location

def ofSpan (file : String) (s : Span) : Location :=
  ⟨file, s.startPos.line, s.startPos.column + 1, s.start, s.length⟩

/-- A place of which only line and column are known. -/
def ofLineColumn (file : String) (line column : Nat) : Location := ⟨file, line, column, 0, 0⟩

end Location

/-- Advice, with an edit that follows it where there is a safe one. -/
structure Suggestion where
  message : String
  replacement : Option Replacement
deriving DecidableEq

structure Violation where
  code : String
  rule : String
  severity : Severity
  location : Location
  message : String
  suggestion : Option Suggestion
deriving DecidableEq

namespace Violation

variable (v : Violation)

/-- The edit that comes with a violation. -/
def replacement? : Option Replacement := v.suggestion.bind Suggestion.replacement

/-- File, line and column as compilers write them. -/
def place : String := s!"{v.location.file}:{v.location.line}:{v.location.column}"

/-- The violation on one line. -/
def oneLine : String := s!"{v.place}: {v.severity.name} [{v.code}] {v.message}"

/-- The violation on a line of its own each for rule, message and advice. -/
def paragraph : String :=
  let advice := match v.suggestion with
    | none => ""
    | some s =>
      let mark := if s.replacement.isSome then " (fixable)" else ""
      s!"  = help: {s.message}{mark}\n"
  s!"{v.code} {v.rule} at {v.place}\n  {v.severity.name}: {v.message}\n{advice}"

/-- The heading of the violation where its source is shown. -/
def heading : String := s!"[{v.code}] {v.message}"

/-- The advice shown with the source. -/
def help? : Option String := v.suggestion.map Suggestion.message

end Violation
end Interline
