import Interline.LinebreakRule
import Interline.Policy.Entry
import Interline.Toml.Document

/-! # Configuration

What a configuration file says: which files to look at, and for every rule whether it is on, how bad
its violations are, and options of its own. -/

namespace Interline

/-- What can be wrong with a configuration: the file as a whole, or one option of a rule. -/
inductive ConfigError
  | malformed
  | option (key : String)
deriving DecidableEq

/-- The settings of one rule. -/
structure RuleConfig where
  enabled : Option Bool
  severity : Option Severity
  options : List (String × Toml.Value)

namespace RuleConfig

/-- The settings of a rule that a configuration does not mention. -/
def default : RuleConfig := ⟨none, none, []⟩

/-- An option read as a value of some type; absent options are none, and others must fit. -/
def option? {α : Type} (c : RuleConfig) (key : String) (read : Toml.Value → Option α) :
    Except ConfigError (Option α) :=
  match c.options.lookup key with
  | none => .ok none
  | some v =>
    match read v with
    | some a => .ok (some a)
    | none => .error (.option key)

end RuleConfig

/-- The settings for finding files. -/
structure AnalyzerConfig where
  root : String
  exclude : List String
  respectGitignore : Bool

/-- The settings without a configuration. -/
def AnalyzerConfig.default : AnalyzerConfig where
  root := "."
  exclude := ["**/node_modules/**", "**/dist/**"]
  respectGitignore := true

structure Config where
  analyzer : AnalyzerConfig
  rules : List (String × RuleConfig)

namespace Config

def default : Config := ⟨.default, []⟩

def isRuleEnabled (c : Config) (rule : String) : Bool :=
  match c.rules.lookup rule with
  | none => true
  | some r => r.enabled.getD true

/-- The severity that a configuration gives to a rule. -/
def ruleSeverity? (c : Config) (rule : String) : Option Severity :=
  (c.rules.lookup rule).bind RuleConfig.severity

/-! ### Reading -/

/-- A field of a table; a present one must fit. -/
def field? {α : Type} (entries : List (String × Toml.Value)) (key : String)
    (read : Toml.Value → Option α) : Option (Option α) :=
  match entries.lookup key with
  | none => some none
  | some v => (read v).map some

/-- A severity: its name, or a table that has the name as its only key, with nothing under it. -/
def severityOf? : Toml.Value → Option Severity
  | .string s => Severity.ofName? s
  | .table [(s, .table [])] => Severity.ofName? s
  | .table [(s, .array [])] => Severity.ofName? s
  | _ => none

def ruleOf? : Toml.Value → Option RuleConfig
  | .table entries => do
    return {
      enabled := ← field? entries "enabled" Toml.Value.boolean?
      severity := ← field? entries "severity" severityOf?
      options := entries.filter fun (key, _) => key != "enabled" && key != "severity" }
  | _ => none

/-- The settings for finding files, from a table or from a list of the fields in their order.  What
is not given takes its plain default; no exclusion is among those. -/
def analyzerOf? (v : Toml.Value) : Option AnalyzerConfig := do
  let entries ← match v with
    | .table entries => some entries
    | .array items => some (["root", "exclude", "respect_gitignore"].zip items)
    | _ => none
  return {
    root := (← field? entries "root" Toml.Value.string?).getD "."
    exclude := (← field? entries "exclude" Toml.Value.strings?).getD []
    respectGitignore := (← field? entries "respect_gitignore" Toml.Value.boolean?).getD true }

def rulesOf? : Toml.Value → Option (List (String × RuleConfig))
  | .table entries => entries.mapM fun (name, v) => return (name, ← ruleOf? v)
  | _ => none

/-- Reads a configuration. -/
def parse (text : String) : Except ConfigError Config :=
  let config? : Option Config := do
    let entries ← Toml.parse? text
    let analyzer ← field? entries "analyzer" analyzerOf?
    let rules ← field? entries "rules" rulesOf?
    return ⟨analyzer.getD .default, rules.getD []⟩
  match config? with
  | some c => .ok c
  | none => .error .malformed

end Config

/-! ### The line break rule of a configuration -/

/-- What can be wrong with the policy of a configuration. -/
inductive PolicyError
  | config (e : ConfigError)
  | entry (e : EntryError)
deriving DecidableEq

def entryItemOf? : Toml.Value → Option EntryItem
  | .string s => some (.name s)
  | v => v.strings?.map .names

/-- A list of entries, with their shape checked and not their names. -/
def entriesOf? (v : Toml.Value) : Option (List Entry) := do
  (← v.array?).mapM fun entry => do (← entry.array?).mapM entryItemOf?

/-- The policy among a rule's options; without one, no rules. -/
def RuleConfig.policy (c : RuleConfig) : Except PolicyError Policy :=
  match c.option? "statements" entriesOf? with
  | .error e => .error (.config e)
  | .ok entries =>
    match Policy.ofEntries (entries.getD []) with
    | .ok p => .ok p
    | .error e => .error (.entry e)

namespace LinebreakRule

def ofConfig (c : RuleConfig) : Except PolicyError LinebreakRule := do
  return ⟨← c.policy, c.severity⟩

end LinebreakRule

/-- The rules that a configuration turns on: none if it turns the line break rule off, does not
mention it, or gives it no policy. -/
def Config.activeRules (c : Config) : Except PolicyError (List LinebreakRule) :=
  if !c.isRuleEnabled LinebreakRule.name then return []
  else
    match c.rules.lookup LinebreakRule.name with
    | none => return []
    | some settings => do
      let r ← LinebreakRule.ofConfig settings
      return if r.policy.isEmpty then [] else [r]

end Interline
