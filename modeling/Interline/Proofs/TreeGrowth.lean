import Mathlib
import Interline.SyntaxTree

/-! # Trees that grow by pushes

A tree comes from `ofRoot` by calls of `push?` and from nowhere else; `Grown` says so.  Each node
keeps its parent and its children, so the two links could disagree.  In a grown tree they do not:

* `Linked` collects what holds between the links: a child names its parent, a parent lists its
  children in the order of their names, and only the root has no parent;
* `Grown.linked` proves it by induction on the pushes, with `node?_push` as the only place that
  looks into a push;
* `Below t a d` is the reflexive and transitive closure of `IsChild`: `d` is `a` or hangs somewhere
  below it.  Names grow on the way down (`Below.le`), the nodes above a node form a chain
  (`Linked.below_total`), and subtrees of two siblings have no node in common
  (`Linked.eq_of_below`). -/

namespace Interline.SyntaxTree

variable {t t' : SyntaxTree}

/-! ### Growth -/

/-- The trees made from a root by pushes. -/
inductive Grown : SyntaxTree → Prop
  | root (span : Span) : Grown (ofRoot span)
  | push {t t' : SyntaxTree} {parent id : Nat} {kind : NodeKind} {span : Span} :
      Grown t → t.push? parent kind span = some (id, t') → Grown t'

/-- Pushes one after the other; what has no parent in the tree by then is left out. -/
def pushAll (t : SyntaxTree) : List (Nat × NodeKind × Span) → SyntaxTree
  | [] => t
  | (parent, kind, span) :: rest =>
    match t.push? parent kind span with
    | some (_, grown) => grown.pushAll rest
    | none => t.pushAll rest

theorem Grown.pushAll : ∀ (pushes : List (Nat × NodeKind × Span)) {t : SyntaxTree},
    t.Grown → (t.pushAll pushes).Grown
  | [], _, h => h
  | (parent, kind, span) :: rest, t, h => by
      unfold SyntaxTree.pushAll
      split
      next hp => exact Grown.pushAll rest (h.push hp)
      next => exact Grown.pushAll rest h

/-- A node after a new one was hung below `parent`: only the children of `parent` change. -/
def adopted (t : SyntaxTree) (parent i : Nat) (n : Node) : Node :=
  if i = parent then { n with children := n.children ++ [t.size] } else n

@[simp] theorem adopted_parent (parent i : Nat) (n : Node) :
    (t.adopted parent i n).parent = n.parent := by
  unfold adopted
  split <;> rfl

@[simp] theorem adopted_kind (parent i : Nat) (n : Node) :
    (t.adopted parent i n).kind = n.kind := by
  unfold adopted
  split <;> rfl

@[simp] theorem adopted_span (parent i : Nat) (n : Node) :
    (t.adopted parent i n).span = n.span := by
  unfold adopted
  split <;> rfl

theorem mem_adopted_children {parent i c : Nat} {n : Node} :
    c ∈ (t.adopted parent i n).children ↔ c ∈ n.children ∨ (i = parent ∧ c = t.size) := by
  unfold adopted
  split
  next h => simp [h]
  next h => simp [h]

theorem eq_of_node?_ofRoot {span : Span} {i : Nat} {n : Node}
    (h : (ofRoot span).node? i = some n) : i = root ∧ n = ⟨.program, span, none, []⟩ := by
  cases i with
  | zero =>
      cases h
      exact ⟨rfl, rfl⟩
  | succ i => simp [node?, ofRoot] at h

theorem node?_lt {i : Nat} {n : Node} (h : t.node? i = some n) : i < t.size :=
  (Array.getElem?_eq_some_iff.1 h).1

theorem node?_isSome {i : Nat} (h : i < t.size) : ∃ n, t.node? i = some n :=
  ⟨t.nodes[i], Array.getElem?_eq_some_iff.2 ⟨h, rfl⟩⟩

theorem exists_push {parent : Nat} (h : parent < t.size) (kind : NodeKind) (span : Span) :
    ∃ grown, t.push? parent kind span = some (t.size, grown) := by
  unfold push?
  rw [dif_pos (show parent < t.nodes.size from h)]
  exact ⟨_, rfl⟩

theorem push?_eq_some {parent id : Nat} {kind : NodeKind} {span : Span}
    (h : t.push? parent kind span = some (id, t')) :
    parent < t.size ∧ id = t.size ∧ t'.nodes =
      (t.nodes.modify parent fun n => { n with children := n.children ++ [t.size] }).push
        ⟨kind, span, some parent, []⟩ := by
  unfold push? at h
  split at h
  next hp =>
    simp only [Option.some.injEq, Prod.mk.injEq] at h
    obtain ⟨rfl, rfl⟩ := h
    exact ⟨hp, rfl, rfl⟩
  next => simp at h

theorem size_push {parent id : Nat} {kind : NodeKind} {span : Span}
    (h : t.push? parent kind span = some (id, t')) : t'.size = t.size + 1 := by
  unfold size
  rw [(push?_eq_some h).2.2]
  simp

/-- A push adds one node under the next free name, and otherwise only tells the parent of it. -/
theorem node?_push {parent id : Nat} {kind : NodeKind} {span : Span}
    (h : t.push? parent kind span = some (id, t')) (i : Nat) :
    t'.node? i = if i = t.size then some ⟨kind, span, some parent, []⟩
      else (t.node? i).map (t.adopted parent i) := by
  unfold node? size
  rw [(push?_eq_some h).2.2, Array.getElem?_push, Array.size_modify]
  split
  · rfl
  · rw [Array.getElem?_modify]
    by_cases hi : parent = i
    · have e : t.adopted parent i =
          fun n => { n with children := n.children ++ [t.nodes.size] } := by
        funext n
        simp [adopted, hi, size]
      rw [if_pos hi, e]
      rfl
    · have e : t.adopted parent i = fun n => n := by
        funext n
        simp [adopted, Ne.symm hi]
      rw [if_neg hi, e, Option.map_id']

theorem cases_of_node?_push {parent id i : Nat} {kind : NodeKind} {span : Span} {n : Node}
    (h : t.push? parent kind span = some (id, t')) (hn : t'.node? i = some n) :
    (i = t.size ∧ n = ⟨kind, span, some parent, []⟩) ∨
      ∃ m, t.node? i = some m ∧ n = t.adopted parent i m := by
  rw [node?_push h] at hn
  split at hn
  next hi =>
    cases hn
    exact .inl ⟨hi, rfl⟩
  next =>
    obtain ⟨m, hm, e⟩ := Option.map_eq_some_iff.1 hn
    exact .inr ⟨m, hm, e.symm⟩

theorem node?_push_of_node? {parent id i : Nat} {kind : NodeKind} {span : Span} {n : Node}
    (h : t.push? parent kind span = some (id, t')) (hn : t.node? i = some n) :
    t'.node? i = some (t.adopted parent i n) := by
  rw [node?_push h, if_neg (Nat.ne_of_lt (node?_lt hn)), hn]
  rfl

/-! ### Links -/

/-- `c` is listed among the children of `a`. -/
def IsChild (t : SyntaxTree) (a c : Nat) : Prop :=
  ∃ n, t.node? a = some n ∧ c ∈ n.children

/-- `d` is `a`, or hangs somewhere below it. -/
def Below (t : SyntaxTree) (a d : Nat) : Prop :=
  Relation.ReflTransGen t.IsChild a d

/-- Parents and children name each other. -/
structure Linked (t : SyntaxTree) : Prop where
  root : ∃ n, t.node? root = some n ∧ n.kind = .program ∧ n.parent = none
  parent_of_child : ∀ {a c : Nat}, t.IsChild a c → ∃ k, t.node? c = some k ∧ k.parent = some a
  child_of_parent : ∀ {c a : Nat} {k : Node}, t.node? c = some k → k.parent = some a → t.IsChild a c
  eq_root : ∀ {c : Nat} {k : Node}, t.node? c = some k → k.parent = none → c = SyntaxTree.root
  sorted : ∀ {a : Nat} {n : Node}, t.node? a = some n → n.children.Pairwise (· < ·)

theorem linked_ofRoot (span : Span) : (ofRoot span).Linked where
  root := ⟨⟨.program, span, none, []⟩, rfl, rfl, rfl⟩
  parent_of_child := by
    rintro a c ⟨n, hn, hc⟩
    obtain ⟨-, rfl⟩ := eq_of_node?_ofRoot hn
    cases hc
  child_of_parent := by
    intro c a k hk hp
    obtain ⟨-, rfl⟩ := eq_of_node?_ofRoot hk
    cases hp
  eq_root := by
    intro c k hk _
    exact (eq_of_node?_ofRoot hk).1
  sorted := by
    intro a n hn
    obtain ⟨-, rfl⟩ := eq_of_node?_ofRoot hn
    exact List.Pairwise.nil

/-- The children of a node after a push: the new node, below its parent, and those from before. -/
theorem isChild_push {parent id : Nat} {kind : NodeKind} {span : Span}
    (h : t.push? parent kind span = some (id, t')) (a c : Nat) :
    t'.IsChild a c ↔ t.IsChild a c ∨ (a = parent ∧ c = t.size) := by
  have hp := (push?_eq_some h).1
  constructor
  · rintro ⟨n, hn, hc⟩
    rcases cases_of_node?_push h hn with ⟨-, rfl⟩ | ⟨m, hm, rfl⟩
    · cases hc
    · rcases mem_adopted_children.1 hc with hc | hnew
      · exact .inl ⟨m, hm, hc⟩
      · exact .inr hnew
  · rintro (⟨n, hn, hc⟩ | ⟨rfl, rfl⟩)
    · exact ⟨_, node?_push_of_node? h hn, mem_adopted_children.2 (.inl hc)⟩
    · obtain ⟨n, hn⟩ := node?_isSome hp
      exact ⟨_, node?_push_of_node? h hn, mem_adopted_children.2 (.inr ⟨rfl, rfl⟩)⟩

theorem IsChild.lt {a c : Nat} (h : t.IsChild a c) : a < c ∧ c < t.size := by
  obtain ⟨n, hn, hc⟩ := h
  exact child_bounds hn hc

theorem Linked.push {parent id : Nat} {kind : NodeKind} {span : Span} (hl : t.Linked)
    (h : t.push? parent kind span = some (id, t')) : t'.Linked where
  root := by
    obtain ⟨n, hn, hk, hr⟩ := hl.root
    exact ⟨_, node?_push_of_node? h hn, by rw [adopted_kind, hk], by rw [adopted_parent, hr]⟩
  parent_of_child := by
    intro a c hac
    rcases (isChild_push h a c).1 hac with hac | ⟨rfl, rfl⟩
    · obtain ⟨k, hk, hka⟩ := hl.parent_of_child hac
      exact ⟨_, node?_push_of_node? h hk, by rw [adopted_parent, hka]⟩
    · exact ⟨_, by rw [node?_push h, if_pos rfl], rfl⟩
  child_of_parent := by
    intro c a k hk ha
    rw [isChild_push h]
    rcases cases_of_node?_push h hk with ⟨hc, rfl⟩ | ⟨m, hm, rfl⟩
    · exact .inr ⟨(Option.some.inj ha).symm, hc⟩
    · rw [adopted_parent] at ha
      exact .inl (hl.child_of_parent hm ha)
  eq_root := by
    intro c k hk ha
    rcases cases_of_node?_push h hk with ⟨-, rfl⟩ | ⟨m, hm, rfl⟩
    · cases ha
    · rw [adopted_parent] at ha
      exact hl.eq_root hm ha
  sorted := by
    intro a n hn
    rcases cases_of_node?_push h hn with ⟨-, rfl⟩ | ⟨m, hm, rfl⟩
    · exact List.Pairwise.nil
    · unfold adopted
      split
      · -- The new node has the greatest name so far.
        refine List.pairwise_append.2 ⟨hl.sorted hm, List.pairwise_singleton _ _, ?_⟩
        intro x hx y hy
        rw [List.mem_singleton.1 hy]
        exact (child_bounds hm hx).2
      · exact hl.sorted hm

/-- **The links of a grown tree agree.** -/
theorem Grown.linked (h : t.Grown) : t.Linked := by
  induction h with
  | root span => exact linked_ofRoot span
  | push _ hp ih => exact ih.push hp

/-! ### Descent -/

namespace Below

theorem refl (t : SyntaxTree) (a : Nat) : t.Below a a := Relation.ReflTransGen.refl

theorem of_isChild {a c : Nat} (h : t.IsChild a c) : t.Below a c := Relation.ReflTransGen.single h

theorem trans {a b c : Nat} (hab : t.Below a b) (hbc : t.Below b c) : t.Below a c :=
  Relation.ReflTransGen.trans hab hbc

theorem cases_child {a d : Nat} (h : t.Below a d) : a = d ∨ ∃ c, t.IsChild a c ∧ t.Below c d :=
  Relation.ReflTransGen.cases_head h

theorem cases_parent {a d : Nat} (h : t.Below a d) : d = a ∨ ∃ b, t.Below a b ∧ t.IsChild b d :=
  Relation.ReflTransGen.cases_tail h

theorem le {a d : Nat} (h : t.Below a d) : a ≤ d := by
  induction h with
  | refl => exact Nat.le_refl a
  | tail _ hc ih => exact Nat.le_trans ih (Nat.le_of_lt hc.lt.1)

theorem lt_size {a d : Nat} (h : t.Below a d) (ha : a < t.size) : d < t.size := by
  rcases h.cases_parent with rfl | ⟨b, -, hb⟩
  · exact ha
  · exact hb.lt.2

end Below

namespace Linked

variable (hl : t.Linked)
include hl

theorem parent_unique {a b c : Nat} (ha : t.IsChild a c) (hb : t.IsChild b c) : a = b := by
  obtain ⟨k, hk, hka⟩ := hl.parent_of_child ha
  obtain ⟨k', hk', hkb⟩ := hl.parent_of_child hb
  rw [hk] at hk'
  cases hk'
  rw [hka] at hkb
  exact Option.some.inj hkb

/-- Of two nodes above a third one, one is above the other. -/
theorem below_total {a b d : Nat} (ha : t.Below a d) (hb : t.Below b d) :
    t.Below a b ∨ t.Below b a := by
  induction ha with
  | refl => exact .inr hb
  | tail hac hcd ih =>
      rcases hb.cases_parent with rfl | ⟨e, hbe, hed⟩
      · exact .inl (hac.tail hcd)
      · rw [hl.parent_unique hed hcd] at hbe
        exact ih hbe

theorem not_below_sibling {a b c : Nat} (hb : t.IsChild a b) (hc : t.IsChild a c)
    (hne : b ≠ c) : ¬t.Below b c := by
  intro h
  rcases h.cases_parent with rfl | ⟨e, hbe, hec⟩
  · exact hne rfl
  · rw [hl.parent_unique hec hc] at hbe
    exact absurd hb.lt.1 (by have := hbe.le; omega)

/-- A node hangs below one child of a node at most. -/
theorem eq_of_below {a b c d : Nat} (hb : t.IsChild a b) (hc : t.IsChild a c)
    (hbd : t.Below b d) (hcd : t.Below c d) : b = c := by
  by_contra hne
  rcases hl.below_total hbd hcd with h | h
  · exact hl.not_below_sibling hb hc hne h
  · exact hl.not_below_sibling hc hb (fun e => hne e.symm) h

theorem below_root : ∀ {i : Nat}, i < t.size → t.Below SyntaxTree.root i := by
  intro i
  induction i using Nat.strong_induction_on with
  | _ i ih =>
      intro hi
      obtain ⟨k, hk⟩ := node?_isSome hi
      cases hp : k.parent with
      | none =>
          rw [hl.eq_root hk hp]
          exact .refl t SyntaxTree.root
      | some a =>
          have hc := hl.child_of_parent hk hp
          exact (ih a hc.lt.1 (Nat.lt_trans hc.lt.1 hi)).trans (.of_isChild hc)

end Linked

end Interline.SyntaxTree
