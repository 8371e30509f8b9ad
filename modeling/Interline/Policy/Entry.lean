import Interline.Policy

/-! # Policies as lists of names

The written form of a policy: one entry for each rule, with a requirement and the statement types of
its two sides.  `Policy.ofEntries` reads the form and reports the first fault, `Policy.toEntries`
writes it. -/

namespace Interline

/-- One element of an entry: a name, or a list of names. -/
inductive EntryItem
  | name (name : String)
  | names (names : List String)
deriving DecidableEq

/-- An entry as it is written, of any length. -/
abbrev Entry := List EntryItem

/-- Where in the list of entries a name stands. -/
inductive EntryPlace
  | item (entry index : Nat)
  | element (entry index element : Nat)
deriving DecidableEq

def EntryPlace.text : EntryPlace → String
  | .item entry index => s!"statements[{entry}][{index}]"
  | .element entry index place => s!"statements[{entry}][{index}][{place}]"

/-- What can be wrong with an entry. -/
inductive EntryError
  | arity (entry found : Nat)
  | requirementNotString (entry : Nat)
  | unknownRequirement (place : EntryPlace) (value : String)
  | unknownStatementType (place : EntryPlace) (value : String)
  | emptyTypeList (place : EntryPlace)
  | duplicateStatementType (place : EntryPlace) (value : String)
deriving DecidableEq

/-- The text shown for an unknown requirement, wherever it stands. -/
def Requirement.unknownMessage (value : String) : String :=
  s!"unknown requirement `{value}`, expected: any, never, always, blankline"

/-- The text shown for an unknown statement type, wherever it stands. -/
def StatementType.unknownMessage (value : String) : String :=
  s!"unknown statement type `{value}`"

def EntryError.message : EntryError → String
  | .arity entry found =>
    s!"statements[{entry}]: expected [requirement, prev, next], found {found} element(s)"
  | .requirementNotString entry => s!"statements[{entry}][0]: requirement must be a string"
  | .unknownRequirement place value => s!"{place.text}: {Requirement.unknownMessage value}"
  | .unknownStatementType place value =>
    s!"{place.text}: {StatementType.unknownMessage value} (see `linebreak-lint list-types`)"
  | .emptyTypeList place => s!"{place.text}: statement type list must not be empty"
  | .duplicateStatementType place value =>
    s!"{place.text}: statement type `{value}` is listed more than once"

namespace TypeSpec

/-- Reads a type name. -/
def readType (place : EntryPlace) (name : String) : Except EntryError StatementType :=
  match StatementType.ofName? name with
  | some t => .ok t
  | none => .error (.unknownStatementType place name)

/-- Reads the rest of a list of type names, each different from those before it. -/
def readTypes (entry index : Nat) (seen : List StatementType) :
    List String → Except EntryError (List StatementType)
  | [] => .ok []
  | name :: rest => do
    let t ← readType (.element entry index seen.length) name
    if t ∈ seen then throw (.duplicateStatementType (.item entry index) name)
    return t :: (← readTypes entry index (seen ++ [t]) rest)

/-- Reads one side of a rule. -/
def ofItem (entry index : Nat) : EntryItem → Except EntryError TypeSpec
  | .name name => return .single (← readType (.item entry index) name)
  | .names [] => .error (.emptyTypeList (.item entry index))
  | .names names => return .anyOf (← readTypes entry index [] names)

/-- Writes one side of a rule. -/
def toItem : TypeSpec → EntryItem
  | .single t => .name t.name
  | .anyOf ts => .names (ts.map StatementType.name)

end TypeSpec

namespace PolicyRule

/-- Reads one rule; `index` is the place of the entry. -/
def ofEntry (index : Nat) : Entry → Except EntryError PolicyRule
  | [first, previous, next] => do
    let requirement ← match first with
      | .names _ => throw (.requirementNotString index)
      | .name name =>
        match Requirement.ofName? name with
        | some r => pure r
        | none => throw (.unknownRequirement (.item index 0) name)
    return ⟨requirement, ← TypeSpec.ofItem index 1 previous, ← TypeSpec.ofItem index 2 next⟩
  | entry => .error (.arity index entry.length)

def toEntry (r : PolicyRule) : Entry :=
  [.name r.requirement.name, r.previous.toItem, r.next.toItem]

end PolicyRule

namespace Policy

/-- Reads the entries from the given index on. -/
def readRules (index : Nat) : List Entry → Except EntryError (List PolicyRule)
  | [] => .ok []
  | entry :: rest => do
    let r ← PolicyRule.ofEntry index entry
    return r :: (← readRules (index + 1) rest)

/-- The policy that a list of entries describes, or the first fault in it. -/
def ofEntries (entries : List Entry) : Except EntryError Policy := do
  return ⟨← readRules 0 entries⟩

def toEntries (p : Policy) : List Entry := p.rules.map PolicyRule.toEntry

end Policy
end Interline
