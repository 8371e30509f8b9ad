import Interline.CommandLine.Arguments
import Interline.Json
import Interline.LintResult
import Interline.StatementType
import Interline.Requirement

/-! # Reports

The lines that a run prints about its result, in each of the formats, and the list of everything
that a rule can name. -/

namespace Interline.CommandLine

/-! ### Colours -/

def escapeColour (code : String) : String := s!"\x1b[{code}m"

/-- A text in a colour that terminals know by its code. -/
def coloured (code text : String) : String := escapeColour code ++ text ++ escapeColour "0"

def red : String := "31"

def green : String := "32"

def yellow : String := "33"

def blue : String := "34"

/-- The colour of a severity. -/
def severityColour : Severity → String
  | .error => red
  | .warning => yellow
  | .info => blue

/-! ### Formats -/

/-- A violation on a terminal. -/
def violationLines (v : Violation) : List String :=
  let advice := match v.help? with
    | some help => [s!"  help: {help}"]
    | none => []
  s!"{coloured (severityColour v.severity) v.severity.name} {v.place}" ::
    s!"  {v.heading}" :: advice

/-- The numbers of a run, in the colour of its worst finding. -/
def summaryLine (r : LintResult) : String :=
  let errors := r.count .error
  let warnings := r.count .warning
  let colour := if 0 < errors then red else if 0 < warnings then yellow else green
  coloured colour
    s!"Found {errors} error(s), {warnings} warning(s) in {r.filesChecked} file(s) ({r.fixableCount} fixable with --fix)"

def jsonOfReplacement (r : Replacement) : Json :=
  .object [("start", .number r.start), ("end", .number r.stop), ("new_text", .string r.newText)]

def jsonOfSuggestion (s : Suggestion) : Json :=
  .object [("message", .string s.message),
    ("replacement", (s.replacement.map jsonOfReplacement).getD .null)]

def jsonOfLocation (l : Location) : Json :=
  .object [("file", .string l.file), ("line", .number l.line), ("column", .number l.column),
    ("offset", .number l.offset), ("length", .number l.length)]

def jsonOfViolation (v : Violation) : Json :=
  .object [("code", .string v.code), ("rule", .string v.rule),
    ("severity", .string v.severity.name), ("location", jsonOfLocation v.location),
    ("message", .string v.message),
    ("suggestion", (v.suggestion.map jsonOfSuggestion).getD .null)]

def jsonOfResult (r : LintResult) : Json :=
  .object [("violations", .array (r.violations.map jsonOfViolation)),
    ("files_checked", .number r.filesChecked)]

/-- The lines of a result in a format. -/
def resultLines (r : LintResult) : OutputFormat → List String
  | .text => r.violations.flatMap violationLines ++ [summaryLine r]
  | .json => (jsonOfResult r).lines
  | .compact => r.violations.map Violation.oneLine

/-! ### Names -/

/-- A text with blanks behind it up to a width. -/
def padded (width : Nat) (s : String) : String :=
  s ++ String.ofList (List.replicate (width - s.length) ' ')

/-- A table with two columns under a heading. -/
def tableLines (width ruleWidth : Nat) (heading : String) (rows : List (String × String)) :
    List String :=
  let row (left right : String) : String := s!"{padded width left} {right}"
  row "Name" heading :: String.ofList (List.replicate ruleWidth '-') ::
    rows.map fun (name, text) => row name text

/-- Everything that a rule can name. -/
def nameLines (rule code : String) : List String :=
  [s!"Rule {rule} ({code})", "", "Requirements:", ""] ++
  tableLines 12 60 "Fix" (Requirement.all.map fun r => (r.name, r.help)) ++
  ["", "Statement types:", ""] ++
  tableLines 24 80 "Matches" (StatementType.all.map fun t => (t.name, t.description)) ++
  ["", "A type may also be a list of names, matching any of them, e.g.:",
    "  statements = [[\"blankline\", [\"const\", \"let\", \"var\"], \"*\"]]"]

end Interline.CommandLine
