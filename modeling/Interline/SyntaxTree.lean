import Interline.Span

/-! # Syntax trees

A tree grows from its root by `push?`, which hangs a new node below one that is already there.
Nodes are named by the order in which they came, so a child's name is always larger than its
parent's; the type carries this fact, and every descent below ends because of it. -/

namespace Interline

/-- The statements that the layout rules tell apart. -/
inductive StatementKind
  | block
  | empty
  | expression (isString : Bool)
  | conditional
  | labeled
  | «break»
  | «continue»
  | «with»
  | switch
  | «return»
  | «throw»
  | «try»
  | «while»
  | doWhile
  | «for»
  | forIn
  | debugger
  | variableDeclaration
  | functionDeclaration
  | classDeclaration
  | «import»
  | «export»
deriving DecidableEq

/-- What a node of a syntax tree is. -/
inductive NodeKind
  | program
  | statement (kind : StatementKind)
  | switchCase
  | other
deriving DecidableEq

namespace NodeKind

/-- Nodes that hold a list of statements or of switch clauses. -/
def isStatementList : NodeKind → Bool
  | .program | .switchCase | .statement .block | .statement .switch => true
  | _ => false

def isStatement : NodeKind → Bool
  | .statement _ => true
  | _ => false

/-- Nodes whose distance to the one before them is checked. -/
def isListItem : NodeKind → Bool
  | .statement _ | .switchCase => true
  | _ => false

end NodeKind

/-- A node, with its parent and children by their places in the order of arrival. -/
structure Node where
  kind : NodeKind
  span : Span
  parent : Option Nat
  children : List Nat

/-- Nodes in the order of arrival; children come after their parent. -/
structure SyntaxTree where
  nodes : Array Node
  child_above : ∀ (id c : Nat) (n : Node), nodes[id]? = some n → c ∈ n.children →
    id < c ∧ c < nodes.size

namespace SyntaxTree

/-- The tree of an empty program. -/
def ofRoot (span : Span) : SyntaxTree where
  nodes := #[⟨.program, span, none, []⟩]
  child_above := by
    intro id c n h hc
    cases id with
    | zero => simp at h; subst h; simp at hc
    | succ id => simp at h

def root : Nat := 0

variable (t : SyntaxTree)

def size : Nat := t.nodes.size

def node? (id : Nat) : Option Node := t.nodes[id]?

/-- Hangs a new last child below a node of the tree; fails for any other parent. -/
def push? (parent : Nat) (kind : NodeKind) (span : Span) : Option (Nat × SyntaxTree) :=
  if _h : parent < t.nodes.size then
    let adopt (n : Node) : Node := { n with children := n.children ++ [t.nodes.size] }
    some (t.nodes.size, {
      nodes := (t.nodes.modify parent adopt).push ⟨kind, span, some parent, []⟩
      child_above := by
        intro i c n hn hc
        simp only [Array.getElem?_push, Array.size_modify, Array.getElem?_modify] at hn
        simp only [Array.size_push, Array.size_modify]
        split at hn
        · simp only [Option.some.injEq] at hn
          subst hn
          simp at hc
        · split at hn
          · obtain ⟨m, hm, rfl⟩ := Option.map_eq_some_iff.1 hn
            have hi := (Array.getElem?_eq_some_iff.1 hm).1
            rcases List.mem_append.1 hc with hc | hc
            · have := t.child_above i c m hm hc
              omega
            · have := List.mem_singleton.1 hc
              omega
          · have := t.child_above i c n hn hc
            omega })
  else none

/-- Whether an id names a statement. -/
def isStatement (id : Nat) : Bool :=
  (t.node? id).any fun n => n.kind.isStatement

theorem child_bounds {t : SyntaxTree} {id c : Nat} {n : Node} (h : t.node? id = some n)
    (hc : c ∈ n.children) : id < c ∧ c < t.size :=
  t.child_above id c n h hc

end SyntaxTree
end Interline
