import Interline.Check
import Interline.Violation

/-! # The line break rule

A policy made into a rule over files: every report becomes a violation at the first token of the
statement that it is about. -/

namespace Interline

/-- The path by which a file is reported: what is left of it below the base directory. -/
def relativePath (base path : String) : String := (Path.strip? path base).getD path

/-- A policy with the severity of what it finds. -/
structure LinebreakRule where
  policy : Policy
  severity : Option Severity

namespace LinebreakRule

def code : String := "LB001"

def name : String := "linebreak-between-statements"

def description : String := "Requires or forbids line breaks between adjacent statements"

def defaultSeverity : Severity := .error

variable (r : LinebreakRule)

/-- The violation for a report on a statement of the given file. -/
def violation (file : String) (m : SourceModel) (report : Report) :
    Except ModelError Violation := do
  let first ← m.firstToken report.node
  match m.token? first with
  | none => throw (.danglingNode report.node)
  | some token =>
    return {
      code := code
      rule := name
      severity := r.severity.getD defaultSeverity
      location := .ofSpan file token.span
      message := report.requirement.message
      suggestion := some ⟨report.requirement.help, report.fix⟩ }

/-- The violations in a file, in the order of the text. -/
def check (file : String) (m : SourceModel) : Except ModelError (List Violation) := do
  (← r.policy.check m).mapM (r.violation file m)

end LinebreakRule
end Interline
