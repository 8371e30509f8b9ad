/-! # Requirements

What the layout between two statements must look like, as a condition on the number of line
breaks between them. -/

namespace Interline

/-- A demand on the line breaks between two statements. -/
inductive Requirement
  | any
  | never
  | always
  | blankLine
deriving DecidableEq

namespace Requirement

def all : List Requirement := [.any, .never, .always, .blankLine]

/-- The name by which a rule refers to a requirement. -/
def name : Requirement → String
  | .any => "any"
  | .never => "never"
  | .always => "always"
  | .blankLine => "blankline"

/-- The requirement of a name. -/
def ofName? (s : String) : Option Requirement := all.find? fun r => r.name == s

/-- The report on a statement that fails the requirement. -/
def message : Requirement → String
  | .any => "Any linebreaks are allowed before this statement."
  | .never => "Unexpected linebreaks before this statement."
  | .always => "Expected one or more linebreaks before this statement."
  | .blankLine => "Expected one or more blank lines before this statement."

/-- The advice that goes with the report. -/
def help : Requirement → String
  | .any => "no change needed"
  | .never => "join this statement with the previous one"
  | .always => "insert a linebreak before this statement"
  | .blankLine => "insert a blank line before this statement"

/-- Line breaks that a requirement asks for, where two stand for a blank line. -/
def isSatisfiedBy (linebreaks : Nat) : Requirement → Bool
  | .any => true
  | .never => linebreaks == 0
  | .always => decide (1 ≤ linebreaks)
  | .blankLine => decide (2 ≤ linebreaks)

end Requirement
end Interline
