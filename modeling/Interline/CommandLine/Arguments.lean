import Interline.Violation

/-! # Arguments

The words behind the name of the program: a command with its options, and options that can stand
before or behind the command.  The first word that does not fit decides, and so does a request for
help or for the version. -/

namespace Interline.CommandLine

/-- How violations are shown. -/
inductive OutputFormat
  | text
  | json
  | compact
deriving DecidableEq

def OutputFormat.name : OutputFormat → String
  | .text => "text"
  | .json => "json"
  | .compact => "compact"

def OutputFormat.ofName? (s : String) : Option OutputFormat :=
  [OutputFormat.text, .json, .compact].find? fun f => f.name == s

/-- How to check: what, how to show the violations, whether to apply fixes, what else to leave out,
and the severity from which on the check fails. -/
structure CheckOptions where
  path : String
  format : OutputFormat
  fix : Bool
  exclude : List String
  failOn : Severity
deriving DecidableEq

inductive Command
  | check (options : CheckOptions)
  | listTypes
  | init (force : Bool)
deriving DecidableEq

/-- A command and the configuration file that is named for it. -/
structure Arguments where
  config : Option String
  command : Command
deriving DecidableEq

/-- What is asked for instead of a command. -/
inductive Page
  | overview
  | version
  | check
  | listTypes
  | init
deriving DecidableEq

/-- What the words come to. -/
inductive Request
  | run (arguments : Arguments)
  | page (page : Page)
  | misuse
deriving DecidableEq

/-! ### Options -/

/-- An option: its long and short names, whether a value follows it, whether it can stand more than
once, and the values that it takes. -/
structure OptionSpec where
  long : String
  short : Option Char
  takesValue : Bool
  repeats : Bool
  accepts : String → Bool

/-- An option without a value. -/
def flag (long : String) (short : Option Char) : OptionSpec :=
  ⟨long, short, false, false, fun _ => true⟩

/-- Options of the whole program. -/
def commonOptions : List OptionSpec :=
  [flag "verbose" (some 'v'), ⟨"config", some 'c', true, false, fun v => !v.isEmpty⟩,
    flag "help" (some 'h')]

/-- Options in front of the command. -/
def programOptions : List OptionSpec := commonOptions ++ [flag "version" (some 'V')]

def checkOptions : List OptionSpec :=
  commonOptions ++
    [⟨"format", some 'f', true, false, fun v => (OutputFormat.ofName? v).isSome⟩,
      flag "fix" none, ⟨"exclude", some 'e', true, true, fun _ => true⟩,
      ⟨"fail-on", none, true, false, fun v => (Severity.ofName? v).isSome⟩]

def initOptions : List OptionSpec := commonOptions ++ [flag "force" none]

/-- Why reading the words ends early. -/
inductive Stop
  | help
  | version
  | misfit
deriving DecidableEq

/-- The options and other words found so far, and the words that are left. -/
structure Scan where
  given : List (String × String)
  words : List String
  rest : List String

namespace Scan

/-- The values of an option, in their order. -/
def values (s : Scan) (long : String) : List String :=
  s.given.filterMap fun (name, v) => if name == long then some v else none

/-- The value of an option that stands at most once. -/
def value? (s : Scan) (long : String) : Option String := (s.values long).head?

def has (s : Scan) (long : String) : Bool := !(s.values long).isEmpty

/-- Adds an option; a request for help or for the version ends the scan. -/
def add (o : OptionSpec) (value : String) (s : Scan) : Except Stop Scan :=
  if o.long = "help" then .error .help
  else if o.long = "version" then .error .version
  else if !o.accepts value || (!o.repeats && s.has o.long) then .error .misfit
  else .ok { s with given := s.given ++ [(o.long, value)] }

/-- Whether a word is a value and no option. -/
def isValue (word : String) : Bool := word.toList.head? != some '-' || word == "-"

/-- Adds the short options in one word.  An option that takes a value takes the rest of the word,
behind an equals sign if there is one, or else the next word. -/
def addShort (options : List OptionSpec) (s : Scan) : List Char → Except Stop Scan
  | [] => .ok s
  | c :: cs =>
    match options.find? fun o => o.short == some c with
    | none => .error .misfit
    | some o =>
      if o.takesValue then
        match cs, s.rest with
        | '=' :: value, _ => s.add o (String.ofList value)
        | [], word :: rest => if isValue word then { s with rest := rest }.add o word else .error .misfit
        | [], [] => .error .misfit
        | value, _ => s.add o (String.ofList value)
      else do
        addShort options (← s.add o "") cs

/-- Adds a long option. -/
def addLong (options : List OptionSpec) (s : Scan) (body : List Char) : Except Stop Scan :=
  let name := String.ofList (body.takeWhile (· ≠ '='))
  match options.find? fun o => o.long == name, body.dropWhile (· ≠ '=') with
  | none, _ => .error .misfit
  | some o, _ :: value => if o.takesValue then s.add o (String.ofList value) else .error .misfit
  | some o, [] =>
    if o.takesValue then
      match s.rest with
      | word :: rest => if isValue word then { s with rest := rest }.add o word else .error .misfit
      | [] => .error .misfit
    else s.add o ""

/-- Reads words up to the given number of words that are no options.  Stops at a word that does not
fit. -/
def read (options : List OptionSpec) (room : Nat) (stops : Bool) : Nat → Scan → Except Stop Scan
  | 0, s => .ok s
  | n + 1, s =>
    match s.rest with
    | [] => .ok s
    | word :: rest =>
      let s := { s with rest := rest }
      match word.toList with
      | ['-', '-'] =>
        if stops || room < s.words.length + rest.length || rest.contains "" then .error .misfit
        else .ok { s with words := s.words ++ rest, rest := [] }
      | '-' :: '-' :: body => do
        read options room stops n (← addLong options s body)
      | '-' :: c :: cs => do
        read options room stops n (← addShort options s (c :: cs))
      | cs =>
        if room ≤ s.words.length || cs.isEmpty then .error .misfit
        else
          let s := { s with words := s.words ++ [word] }
          if stops then .ok s else read options room stops n s

/-- Reads the words of a command, or of the program up to the command. -/
def start (options : List OptionSpec) (room : Nat) (stops : Bool) (words : List String) :
    Except Stop Scan :=
  read options room stops words.length ⟨[], [], words⟩

end Scan

/-! ### Commands -/

/-- The page about a command. -/
def pageOf? : String → Option Page
  | "check" => some .check
  | "list-types" => some .listTypes
  | "init" => some .init
  | _ => none

/-- Reads what stands behind the name of a command. -/
def commandOf (name : String) (words : List String) : Except Stop (Option String × Command) := do
  match name with
  | "check" =>
    let s ← Scan.start checkOptions 1 false words
    return (s.value? "config", .check {
      path := s.words.head?.getD "."
      format := ((s.value? "format").bind OutputFormat.ofName?).getD .text
      fix := s.has "fix"
      exclude := s.values "exclude"
      failOn := ((s.value? "fail-on").bind Severity.ofName?).getD .error })
  | "list-types" =>
    let s ← Scan.start commonOptions 0 false words
    return (s.value? "config", .listTypes)
  | "init" =>
    let s ← Scan.start initOptions 0 false words
    return (s.value? "config", .init (s.has "force"))
  | _ => throw .misfit

/-- Reads the words behind the name of the program.  A configuration named behind the command comes
first, then one in front of it, then the one that the environment names.  The environment is asked
in both places where none is named, and then its answer must not be empty. -/
def Request.ofWords (environment : Option String) (words : List String) : Request :=
  match Scan.start programOptions 1 true words with
  | .error .help => .page .overview
  | .error .version => .page .version
  | .error _ => .misuse
  | .ok s =>
    match s.words with
    | ["help"] =>
      match s.rest with
      | [] => .page .overview
      | [name] => ((pageOf? name).map Request.page).getD .misuse
      | _ => .misuse
    | [name] =>
      match commandOf name s.rest with
      | .error .help => ((pageOf? name).map Request.page).getD .misuse
      | .error _ => .misuse
      | .ok (config, command) =>
        let named := s.value? "config"
        if environment = some "" && !(config.isSome && named.isSome) then .misuse
        else .run ⟨(config.or named).or environment, command⟩
    | _ => .misuse

end Interline.CommandLine
