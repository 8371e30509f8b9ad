import Mathlib
import Interline.JavaScript.ParseTree
import Interline.Proofs.TextPlaces

/-! # Places in a parse tree

A place is a list of child indices, read from the root down, and `ParseTree.at?` is the node there.
Places are compared as lists are, so a node comes before what hangs below it, and that before the
siblings further back.  Of two places one is a beginning of the other, or they part at some node
(`prefix_or_parts`).

* `Nests` is what a grammar is expected to give: children lie within their node, one behind the
  other.  Then so does whatever hangs below them (`Nests.contains`, `Nests.stop_le_start`).
* `LocatedIn` says that spans are places of a text, with their lines and columns.
* `select` lists the places that a traversal keeps, in order (`select_sorted`), where it is told
  below which nodes to go on (`mem_select`). -/

namespace Interline.JavaScript

/-! ### Order of places -/

/-- Of two places the first one is above the other, or they part at some node. -/
theorem prefix_or_parts {p q : List Nat} (h : p < q) :
    p <+: q ∨ ∃ stem a b x y, a < b ∧ p = stem ++ a :: x ∧ q = stem ++ b :: y := by
  induction p generalizing q with
  | nil => exact .inl List.nil_prefix
  | cons a p ih =>
      cases q with
      | nil => cases h
      | cons b q =>
          rcases List.cons_lt_cons_iff.1 h with hab | ⟨rfl, hpq⟩
          · exact .inr ⟨[], a, b, p, q, hab, rfl, rfl⟩
          rcases ih hpq with hpre | ⟨stem, c, d, x, y, hcd, rfl, rfl⟩
          · exact .inl (List.cons_prefix_cons.2 ⟨rfl, hpre⟩)
          · exact .inr ⟨a :: stem, c, d, x, y, hcd, rfl, rfl⟩

namespace ParseTree

/-! ### Nodes by their places -/

/-- What holds of a node whenever it holds of its children holds of every tree. -/
@[elab_as_elim, induction_eliminator]
theorem induction {motive : ParseTree → Prop}
    (node : ∀ label span children, (∀ c ∈ children, motive c) →
      motive (.node label span children)) : ∀ t, motive t
  | .node label span children => node label span children fun c _ => induction node c

@[simp] theorem label_node (label : Label) (span : Span) (children : List ParseTree) :
    (node label span children).label = label := rfl

@[simp] theorem span_node (label : Label) (span : Span) (children : List ParseTree) :
    (node label span children).span = span := rfl

@[simp] theorem children_node (label : Label) (span : Span) (children : List ParseTree) :
    (node label span children).children = children := rfl

/-- The node at a place. -/
def at? (t : ParseTree) : List Nat → Option ParseTree
  | [] => some t
  | i :: p => t.children[i]?.bind fun c => c.at? p

variable {t u v : ParseTree} {p q : List Nat}

@[simp] theorem at?_nil (t : ParseTree) : t.at? [] = some t := rfl

theorem at?_cons_eq_some {i : Nat} :
    t.at? (i :: p) = some u ↔ ∃ c, t.children[i]? = some c ∧ c.at? p = some u :=
  Option.bind_eq_some_iff

theorem at?_append (t : ParseTree) (p q : List Nat) :
    t.at? (p ++ q) = (t.at? p).bind fun u => u.at? q := by
  induction p generalizing t with
  | nil => rfl
  | cons i p ih =>
      rw [List.cons_append, at?, at?]
      cases t.children[i]? with
      | none => rfl
      | some c => exact ih c

theorem at?_append_eq_some :
    t.at? (p ++ q) = some v ↔ ∃ u, t.at? p = some u ∧ u.at? q = some v := by
  rw [at?_append, Option.bind_eq_some_iff]

theorem eq_of_leaf (hu : t.at? p = some u) (hleaf : u.children = []) (hpq : p <+: q)
    (hv : t.at? q = some v) : p = q := by
  obtain ⟨x, rfl⟩ := hpq
  cases x with
  | nil => simp
  | cons i x =>
      obtain ⟨u', hu', hv⟩ := at?_append_eq_some.1 hv
      cases hu.symm.trans hu'
      obtain ⟨c, hc, -⟩ := at?_cons_eq_some.1 hv
      simp [hleaf] at hc

/-- A test of every node of a tree. -/
def Everywhere (t : ParseTree) (good : ParseTree → Prop) : Prop :=
  ∀ {p : List Nat} {u : ParseTree}, t.at? p = some u → good u

theorem Everywhere.at? {good : ParseTree → Prop} (h : t.Everywhere good) (hu : t.at? p = some u) :
    u.Everywhere good :=
  fun hv => h (at?_append_eq_some.2 ⟨u, hu, hv⟩)

mutual

/-- Whether all nodes of a tree pass a test. -/
def all (test : ParseTree → Bool) : ParseTree → Bool
  | .node label span children => test (.node label span children) && allOf test children

def allOf (test : ParseTree → Bool) : List ParseTree → Bool
  | [] => true
  | t :: ts => all test t && allOf test ts

end

theorem allOf_iff {test : ParseTree → Bool} {ts : List ParseTree} :
    allOf test ts = true ↔ ∀ t ∈ ts, t.all test = true := by
  induction ts with
  | nil => simp [allOf]
  | cons t ts ih => simp [allOf, ih]

theorem all_iff {test : ParseTree → Bool} : t.all test = true ↔ t.Everywhere (test · = true) := by
  induction t with
  | node label span children ih =>
      rw [all, Bool.and_eq_true, allOf_iff]
      constructor
      · rintro ⟨here, below⟩ p u hu
        cases p with
        | nil =>
            cases hu
            exact here
        | cons i p =>
            obtain ⟨c, hc, hu⟩ := at?_cons_eq_some.1 hu
            have hmem := List.mem_of_getElem? hc
            exact (ih c hmem).1 (below c hmem) hu
      · intro h
        refine ⟨h (at?_nil _), fun c hmem => (ih c hmem).2 fun hu => ?_⟩
        obtain ⟨i, hc⟩ := List.mem_iff_getElem?.1 hmem
        exact h (at?_cons_eq_some.2 ⟨c, hc, hu⟩)

instance (t : ParseTree) (good : ParseTree → Prop) [DecidablePred good] :
    Decidable (t.Everywhere good) :=
  decidable_of_iff (t.all (decide <| good ·) = true) (by simp [all_iff])

/-! ### Spans -/

/-- Children lie within their node, each behind those in front of it. -/
def Nests (t : ParseTree) : Prop :=
  t.Everywhere fun u => (∀ c ∈ u.children, u.span.contains c.span = true) ∧
    u.children.Pairwise fun a b => a.span.stop ≤ b.span.start

instance (t : ParseTree) : Decidable t.Nests :=
  inferInstanceAs (Decidable (t.Everywhere _))

/-- Spans begin and end at places of a text, and say so. -/
def LocatedIn (t : ParseTree) (source : List Char) : Prop :=
  t.Everywhere fun u => u.span.start ≤ u.span.stop ∧
    Text.positionAt? source u.span.start = some u.span.startPos ∧
    Text.positionAt? source u.span.stop = some u.span.stopPos

instance (t : ParseTree) (source : List Char) : Decidable (t.LocatedIn source) :=
  inferInstanceAs (Decidable (t.Everywhere _))

namespace Nests

theorem contains_at? (h : t.Nests) (hu : t.at? p = some u) : t.span.contains u.span = true := by
  induction p generalizing t with
  | nil =>
      cases hu
      simp [Span.contains]
  | cons i p ih =>
      obtain ⟨c, hc, hu'⟩ := at?_cons_eq_some.1 hu
      have hin := (h (at?_nil t)).1 c (List.mem_of_getElem? hc)
      have hbelow := ih (Everywhere.at? h (at?_cons_eq_some.2 ⟨c, hc, at?_nil c⟩)) hu'
      simp only [Span.contains, Bool.and_eq_true, decide_eq_true_eq] at hin hbelow ⊢
      omega

theorem contains (h : t.Nests) (hpq : p <+: q) (hu : t.at? p = some u) (hv : t.at? q = some v) :
    u.span.contains v.span = true := by
  obtain ⟨x, rfl⟩ := hpq
  obtain ⟨u', hu', hv⟩ := at?_append_eq_some.1 hv
  cases hu.symm.trans hu'
  exact contains_at? (Everywhere.at? h hu) hv

theorem stop_le_start (h : t.Nests) (hlt : p < q) (hno : ¬p <+: q) (hu : t.at? p = some u)
    (hv : t.at? q = some v) : u.span.stop ≤ v.span.start := by
  rcases prefix_or_parts hlt with hpre | ⟨stem, a, b, x, y, hab, rfl, rfl⟩
  · exact absurd hpre hno
  obtain ⟨w, hw, hu⟩ := at?_append_eq_some.1 hu
  obtain ⟨w', hw', hv⟩ := at?_append_eq_some.1 hv
  cases hw.symm.trans hw'
  obtain ⟨c, hc, hu⟩ := at?_cons_eq_some.1 hu
  obtain ⟨d, hd, hv⟩ := at?_cons_eq_some.1 hv
  -- The two are inside different children of the node at which they part.
  have hsub : w.Nests := Everywhere.at? h hw
  have hapart : c.span.stop ≤ d.span.start := by
    obtain ⟨ha, rfl⟩ := List.getElem?_eq_some_iff.1 hc
    obtain ⟨hb, rfl⟩ := List.getElem?_eq_some_iff.1 hd
    exact List.pairwise_iff_getElem.1 (h hw).2 a b ha hb hab
  have hfront := contains_at? (Everywhere.at? hsub (at?_cons_eq_some.2 ⟨c, hc, at?_nil c⟩)) hu
  have hback := contains_at? (Everywhere.at? hsub (at?_cons_eq_some.2 ⟨d, hd, at?_nil d⟩)) hv
  simp only [Span.contains, Bool.and_eq_true, decide_eq_true_eq] at hfront hback
  omega

end Nests

/-! ### Traversals -/

mutual

/-- The places of the nodes that are kept, where a traversal goes below those that it enters. -/
def select (enter keep : ParseTree → Bool) : ParseTree → List (List Nat)
  | .node label span children =>
    (if keep (.node label span children) then [[]] else []) ++
      if enter (.node label span children) then selectAll enter keep 0 children else []

/-- The same for trees side by side, the first of which has the given index. -/
def selectAll (enter keep : ParseTree → Bool) (i : Nat) : List ParseTree → List (List Nat)
  | [] => []
  | t :: ts => (select enter keep t).map (i :: ·) ++ selectAll enter keep (i + 1) ts

end

theorem select_eq (enter keep : ParseTree → Bool) : ∀ t : ParseTree, t.select enter keep =
    (if keep t then [[]] else []) ++ if enter t then selectAll enter keep 0 t.children else []
  | .node _ _ _ => by rw [select, children_node]

/-- Whether a traversal gets to a place: it enters all nodes above it. -/
def Reaches (t : ParseTree) (enter : ParseTree → Bool) (p : List Nat) : Prop :=
  ∀ {q : List Nat} {v : ParseTree}, q <+: p → q ≠ p → t.at? q = some v → enter v = true

theorem reaches_nil (t : ParseTree) (enter : ParseTree → Bool) : t.Reaches enter [] :=
  fun hpre hne _ => absurd (List.prefix_nil.1 hpre) hne

theorem reaches_cons {enter : ParseTree → Bool} {i : Nat} {c : ParseTree}
    (hc : t.children[i]? = some c) :
    t.Reaches enter (i :: p) ↔ enter t = true ∧ c.Reaches enter p := by
  constructor
  · intro h
    refine ⟨h List.nil_prefix (by simp) (at?_nil t), fun hpre hne hv => ?_⟩
    exact h (List.cons_prefix_cons.2 ⟨rfl, hpre⟩) (by simpa using hne)
      (at?_cons_eq_some.2 ⟨c, hc, hv⟩)
  · rintro ⟨henter, h⟩ q v hpre hne hv
    rcases List.prefix_cons_iff.1 hpre with rfl | ⟨q, rfl, -⟩
    · cases hv
      exact henter
    · obtain ⟨c', hc', hv⟩ := at?_cons_eq_some.1 hv
      cases hc.symm.trans hc'
      exact h (List.cons_prefix_cons.1 hpre).2 (by simpa using hne) hv

section select

variable {enter keep : ParseTree → Bool}

theorem mem_selectAll {ts : List ParseTree} {i : Nat} : p ∈ selectAll enter keep i ts ↔
    ∃ j q c, p = (i + j) :: q ∧ ts[j]? = some c ∧ q ∈ c.select enter keep := by
  induction ts generalizing i with
  | nil => simp [selectAll]
  | cons t ts ih =>
      rw [selectAll, List.mem_append, List.mem_map, ih]
      constructor
      · rintro (⟨q, hq, rfl⟩ | ⟨j, q, c, rfl, hc, hq⟩)
        · exact ⟨0, q, t, rfl, rfl, hq⟩
        · exact ⟨j + 1, q, c, by congr 1; omega, hc, hq⟩
      · rintro ⟨j, q, c, rfl, hc, hq⟩
        cases j with
        | zero =>
            cases hc
            exact .inl ⟨q, hq, rfl⟩
        | succ j => exact .inr ⟨j, q, c, by congr 1; omega, hc, hq⟩

/-- **A traversal lists the nodes that it gets to and keeps.** -/
theorem mem_select : p ∈ t.select enter keep ↔
    (∃ u, t.at? p = some u ∧ keep u = true) ∧ t.Reaches enter p := by
  induction t generalizing p with
  | node label span children ih =>
      rw [select, List.mem_append]
      cases p with
      | nil =>
          have hno : [] ∉ selectAll enter keep 0 children := by
            rintro h
            obtain ⟨_, _, _, e, -⟩ := mem_selectAll.1 h
            cases e
          simp [reaches_nil, hno]
      | cons i p =>
          have hroot : i :: p ∉
              if keep (.node label span children) then [[]] else [] := by split <;> simp
          simp only [hroot, false_or]
          constructor
          · intro h
            split at h
            next henter =>
              obtain ⟨j, q, c, e, hc, hq⟩ := mem_selectAll.1 h
              rw [Nat.zero_add] at e
              cases e
              obtain ⟨⟨u, hu, hkeep⟩, hreach⟩ := (ih c (List.mem_of_getElem? hc)).1 hq
              exact ⟨⟨u, at?_cons_eq_some.2 ⟨c, hc, hu⟩, hkeep⟩,
                (reaches_cons hc).2 ⟨henter, hreach⟩⟩
            next => cases h
          · rintro ⟨⟨u, hu, hkeep⟩, hreach⟩
            obtain ⟨c, hc, hu⟩ := at?_cons_eq_some.1 hu
            obtain ⟨henter, hreach⟩ := (reaches_cons hc).1 hreach
            rw [if_pos henter, mem_selectAll]
            exact ⟨i, p, c, by simp, hc,
              (ih c (List.mem_of_getElem? hc)).2 ⟨⟨u, hu, hkeep⟩, hreach⟩⟩

theorem selectAll_sorted {ts : List ParseTree}
    (h : ∀ t ∈ ts, (t.select enter keep).Pairwise (· < ·)) (i : Nat) :
    (selectAll enter keep i ts).Pairwise (· < ·) := by
  induction ts generalizing i with
  | nil => exact .nil
  | cons t ts ih =>
      obtain ⟨hhead, htail⟩ := List.forall_mem_cons.1 h
      rw [selectAll, List.pairwise_append, List.pairwise_map]
      refine ⟨hhead.imp fun hlt => List.cons_lt_cons_iff.2 (.inr ⟨rfl, hlt⟩), ih htail _, ?_⟩
      intro x hx y hy
      obtain ⟨p, -, rfl⟩ := List.mem_map.1 hx
      obtain ⟨j, q, -, rfl, -⟩ := mem_selectAll.1 hy
      exact List.cons_lt_cons_iff.2 (.inl (by omega))

theorem select_sorted (t : ParseTree) : (t.select enter keep).Pairwise (· < ·) := by
  induction t with
  | node label span children ih =>
      rw [select, List.pairwise_append]
      refine ⟨by split <;> simp, ?_, ?_⟩
      · split
        · exact selectAll_sorted ih 0
        · exact .nil
      · intro x hx y hy
        split at hx
        next =>
          split at hy
          next =>
            obtain ⟨j, q, -, rfl, -⟩ := mem_selectAll.1 hy
            rw [List.mem_singleton.1 hx]
            exact List.nil_lt_cons _ _
          next => cases hy
        next => cases hx

end select

end ParseTree
end Interline.JavaScript
