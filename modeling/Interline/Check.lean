import Interline.Policy
import Interline.Repair

/-! # Checking a file against a policy

A walk over the statement lists of a file in the order of the text.  Each list is a scope of its
own: a statement or switch clause is compared with the one before it in the same list. -/

namespace Interline

/-- A statement too near to, or too far from, the one before it. -/
structure Report where
  previous : Nat
  node : Nat
  requirement : Requirement
  fix : Option Replacement

namespace Policy

/-- Compares two neighbours of a list. -/
def inspect (p : Policy) (m : SourceModel) (previous node : Nat) :
    Except ModelError (List Report) := do
  let requirement ← p.resolve m previous node
  let linebreaks ← Linebreaks.count m previous node
  if requirement.isSatisfiedBy linebreaks then return []
  else return [⟨previous, node, requirement, ← Repair.propose requirement m previous node⟩]

/-- Whether a node takes part in the comparisons of the list that it is in. -/
def isItem (m : SourceModel) (id : Nat) : Bool :=
  (m.tree.node? id).any fun n => n.kind.isListItem

mutual

/-- The reports on all statements below a node. -/
def reportsBelow (p : Policy) (m : SourceModel) (id : Nat) : Except ModelError (List Report) :=
  match h : m.tree.node? id with
  | none => throw (.danglingNode id)
  | some n =>
    p.reportsOn m id n.kind.isStatementList none n.children fun _ hc => SyntaxTree.child_bounds h hc
termination_by (m.tree.size - id, 1, 0)
decreasing_by
  exact Prod.Lex.right _ (Prod.Lex.left _ _ (by omega))

/-- The reports on the rest of a node's children, given the last item before them. -/
def reportsOn (p : Policy) (m : SourceModel) (parent : Nat) (isList : Bool)
    (previous : Option Nat) (children : List Nat)
    (above : ∀ c ∈ children, parent < c ∧ c < m.tree.size) : Except ModelError (List Report) :=
  match children, above with
  | [], _ => return []
  | c :: rest, above => do
    let item := isList && isItem m c
    let own ← match item, previous with
      | true, some previous => p.inspect m previous c
      | _, _ => pure []
    let inner ← p.reportsBelow m c
    let others ← p.reportsOn m parent isList (if item then some c else previous) rest
      fun d hd => above d (List.mem_cons_of_mem _ hd)
    return own ++ inner ++ others
termination_by (m.tree.size - parent, 0, children.length)
decreasing_by
  · have := above c List.mem_cons_self
    exact Prod.Lex.left _ _ (by omega)
  · exact Prod.Lex.right _ (Prod.Lex.right _ (by simp))

end

/-- All reports on a file, in the order of the text.  A policy without rules looks at nothing. -/
def check (p : Policy) (m : SourceModel) : Except ModelError (List Report) :=
  if p.isEmpty then return [] else p.reportsBelow m SyntaxTree.root

end Policy
end Interline
