import Interline.Requirement
import Interline.StatementType

/-! # Policies

An ordered list of rules.  Of the rules that match a pair of statements the last one decides, and
a pair that no rule matches is free. -/

namespace Interline

/-- One side of a rule: a statement type, or a choice of several. -/
inductive TypeSpec
  | single (type : StatementType)
  | anyOf (types : List StatementType)
deriving DecidableEq

namespace TypeSpec

/-- The types that a side names. -/
def types : TypeSpec → List StatementType
  | .single t => [t]
  | .anyOf ts => ts

/-- Whether a statement is of one of the types, labels looked through. -/
def matches? (spec : TypeSpec) (m : SourceModel) (id : Nat) : Except ModelError Bool := do
  let inner ← m.unwrapLabels id
  spec.types.anyM fun t => t.matches? m inner

end TypeSpec

/-- A requirement for the statements of one side followed by those of the other. -/
structure PolicyRule where
  requirement : Requirement
  previous : TypeSpec
  next : TypeSpec
deriving DecidableEq

/-- Whether a rule is about a pair of statements; the second is looked at only if the first fits. -/
def PolicyRule.matches? (r : PolicyRule) (m : SourceModel) (previous next : Nat) :
    Except ModelError Bool := do
  if ← r.previous.matches? m previous then r.next.matches? m next else return false

/-- Rules in the order of their declaration. -/
structure Policy where
  rules : List PolicyRule
deriving DecidableEq

namespace Policy

def isEmpty (p : Policy) : Bool := p.rules.isEmpty

/-- The requirement of the first rule that matches, in a list with the strongest rule in front. -/
def firstMatch (m : SourceModel) (previous next : Nat) :
    List PolicyRule → Except ModelError Requirement
  | [] => return .any
  | r :: rest => do
    if ← r.matches? m previous next then return r.requirement
    else firstMatch m previous next rest

/-- The requirement for a pair: that of the last rule that matches, and none without one. -/
def resolve (p : Policy) (m : SourceModel) (previous next : Nat) :
    Except ModelError Requirement :=
  firstMatch m previous next p.rules.reverse

end Policy
end Interline
