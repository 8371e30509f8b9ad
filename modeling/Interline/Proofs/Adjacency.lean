import Mathlib
import Interline.Check
import Interline.Proofs.TreeGrowth

/-! # Neighbours in statement lists

Which statements a check compares, said without a walk.

* `SyntaxTree.subtree` lists a node and all that hangs below it, in depth-first pre-order, each
  node once (`mem_subtree_iff`, `nodup_subtree`);
* `SyntaxTree.Adjacent` holds of two items of one statement list with no other item between them;
* `SyntaxTree.precursor?` finds the first of the two from the second (`precursor?_eq_some_iff`), and
  `SyntaxTree.pairs` runs it over the whole tree (`mem_pairs_iff`). -/

namespace Interline.SyntaxTree

variable {t : SyntaxTree}

/-! ### Pre-order -/

/-- A node and all that hangs below it, parents before children and in the order of the children. -/
def subtree (t : SyntaxTree) (id : Nat) : List Nat :=
  match _h : t.node? id with
  | none => []
  | some n => id :: n.children.attach.flatMap fun c => t.subtree c.1
termination_by t.size - id
decreasing_by
  have := child_bounds _h c.2
  omega

theorem subtree_eq {id : Nat} {n : Node} (h : t.node? id = some n) :
    t.subtree id = id :: n.children.flatMap t.subtree := by
  rw [subtree]
  split
  next h' => rw [h] at h'; cases h'
  next m h' =>
    rw [h] at h'
    cases h'
    rw [List.flatMap_subtype (g := t.subtree) (by intro x hx; rfl), List.unattach_attach]

theorem mem_subtree_iff : ∀ {a d : Nat}, a < t.size → (d ∈ t.subtree a ↔ t.Below a d) := by
  intro a d
  induction h : t.size - a using Nat.strong_induction_on generalizing a with
  | _ k ih =>
      intro ha
      obtain ⟨n, hn⟩ := node?_isSome ha
      rw [subtree_eq hn, List.mem_cons, List.mem_flatMap]
      constructor
      · rintro (rfl | ⟨c, hc, hd⟩)
        · exact .refl t d
        · have hac : t.IsChild a c := ⟨n, hn, hc⟩
          have := hac.lt
          exact (Below.of_isChild hac).trans ((ih (t.size - c) (by omega) rfl this.2).1 hd)
      · intro had
        rcases had.cases_child with rfl | ⟨c, hac, hcd⟩
        · exact .inl rfl
        · have := hac.lt
          obtain ⟨m, hm, hc⟩ := hac
          rw [hn] at hm
          cases hm
          exact .inr ⟨c, hc, (ih (t.size - c) (by omega) rfl this.2).2 hcd⟩

theorem Linked.nodup_children (hl : t.Linked) {a : Nat} {n : Node} (h : t.node? a = some n) :
    n.children.Nodup :=
  (hl.sorted h).imp fun hlt => Nat.ne_of_lt hlt

theorem nodup_subtree (hl : t.Linked) : ∀ {a : Nat}, a < t.size → (t.subtree a).Nodup := by
  intro a
  induction h : t.size - a using Nat.strong_induction_on generalizing a with
  | _ k ih =>
      intro ha
      obtain ⟨n, hn⟩ := node?_isSome ha
      have child : ∀ c ∈ n.children, t.IsChild a c := fun c hc => ⟨n, hn, hc⟩
      rw [subtree_eq hn, List.nodup_cons, List.nodup_flatMap]
      refine ⟨?_, ?_, ?_⟩
      · rw [List.mem_flatMap]
        rintro ⟨c, hc, hac⟩
        have hlt := (child c hc).lt
        have := ((mem_subtree_iff hlt.2).1 hac).le
        omega
      · intro c hc
        have hlt := (child c hc).lt
        exact ih (t.size - c) (by omega) rfl hlt.2
      · apply (hl.nodup_children hn).imp_of_mem
        intro b c hb hc hne d hdb hdc
        have hbd := (mem_subtree_iff (child b hb).lt.2).1 hdb
        have hcd := (mem_subtree_iff (child c hc).lt.2).1 hdc
        exact hne (hl.eq_of_below (child b hb) (child c hc) hbd hcd)

/-! ### Neighbours -/

/-- Whether an id names a statement or a switch clause. -/
def isItem (t : SyntaxTree) (id : Nat) : Bool :=
  (t.node? id).any fun n => n.kind.isListItem

/-- `n` comes right after `p` in a statement list: both are items of it, and what stands between
them is none. -/
def Adjacent (t : SyntaxTree) (p n : Nat) : Prop :=
  ∃ (q : Nat) (list : Node) (earlier between later : List Nat),
    t.node? q = some list ∧ list.kind.isStatementList = true ∧
    list.children = earlier ++ p :: between ++ n :: later ∧
    t.isItem p = true ∧ t.isItem n = true ∧ ∀ x ∈ between, t.isItem x = false

/-- The last item of a list of nodes. -/
def lastItem? (t : SyntaxTree) (ids : List Nat) : Option Nat := ids.reverse.find? t.isItem

/-- The item before `n` in the statement list that holds `n`. -/
def precursor? (t : SyntaxTree) (n : Nat) : Option Nat := do
  let item ← t.node? n
  guard item.kind.isListItem
  let list ← t.node? (← item.parent)
  guard list.kind.isStatementList
  t.lastItem? (list.children.takeWhile (· != n))

/-- All pairs of neighbours whose second member is in a list of nodes, in the order of the list. -/
def pairsAmong (t : SyntaxTree) (ids : List Nat) : List (Nat × Nat) :=
  ids.filterMap fun n => (t.precursor? n).map (·, n)

/-- All pairs of neighbours of a tree, in the pre-order of their second members. -/
def pairs (t : SyntaxTree) : List (Nat × Nat) := t.pairsAmong (t.subtree root)

theorem lastItem?_eq_some_iff {ids : List Nat} {p : Nat} :
    t.lastItem? ids = some p ↔ t.isItem p = true ∧
      ∃ earlier between, ids = earlier ++ p :: between ∧ ∀ x ∈ between, t.isItem x = false := by
  unfold lastItem?
  rw [List.find?_eq_some_iff_append]
  constructor
  · rintro ⟨hp, as, bs, e, has⟩
    refine ⟨hp, bs.reverse, as.reverse, ?_, ?_⟩
    · rw [← List.reverse_reverse ids, e]
      simp
    · intro x hx
      simpa using has x (List.mem_reverse.1 hx)
  · rintro ⟨hp, earlier, between, rfl, hb⟩
    refine ⟨hp, between.reverse, earlier.reverse, by simp, ?_⟩
    intro x hx
    simp [hb x (List.mem_reverse.1 hx)]

theorem lastItem?_concat (ids : List Nat) (c : Nat) :
    t.lastItem? (ids ++ [c]) = if t.isItem c then some c else t.lastItem? ids := by
  unfold lastItem?
  rw [List.reverse_append, List.reverse_singleton, List.singleton_append, List.find?_cons]
  split <;> simp [*]

theorem isItem_eq {i : Nat} {n : Node} (h : t.node? i = some n) :
    t.isItem i = n.kind.isListItem := by
  simp [isItem, h]

theorem takeWhile_ne {earlier later : List Nat} {c : Nat} (h : c ∉ earlier) :
    (earlier ++ c :: later).takeWhile (· != c) = earlier := by
  rw [List.takeWhile_append_of_pos]
  · simp
  · intro x hx
    have : x ≠ c := fun e => h (e ▸ hx)
    simpa using this

/-- What stands before a child of a node decides its precursor. -/
theorem precursor?_child (hl : t.Linked) {a c : Nat} {n : Node} {earlier later : List Nat}
    (hn : t.node? a = some n) (e : n.children = earlier ++ c :: later) :
    t.precursor? c =
      if n.kind.isStatementList && t.isItem c then t.lastItem? earlier else none := by
  have hc : t.IsChild a c := ⟨n, hn, by rw [e]; simp⟩
  obtain ⟨k, hk, hp⟩ := hl.parent_of_child hc
  have hnd := hl.nodup_children hn
  rw [e, List.nodup_append] at hnd
  have hne : c ∉ earlier := fun h => hnd.2.2 c h c List.mem_cons_self rfl
  unfold precursor?
  rw [isItem_eq hk, hk]
  simp only [Option.bind_eq_bind, Option.bind_some, hp, hn]
  rw [e, takeWhile_ne hne]
  cases n.kind.isStatementList <;> cases k.kind.isListItem <;> rfl

theorem precursor?_root (hl : t.Linked) : t.precursor? root = none := by
  obtain ⟨n, hn, -, hr⟩ := hl.root
  unfold precursor?
  rw [hn]
  simp [hr]

theorem precursor?_eq_some_iff (hl : t.Linked) {p n : Nat} :
    t.precursor? n = some p ↔ t.Adjacent p n := by
  constructor
  · intro h
    obtain ⟨k, hk⟩ : ∃ k, t.node? n = some k := by
      cases hk : t.node? n with
      | none => simp [precursor?, hk] at h
      | some k => exact ⟨k, rfl⟩
    obtain ⟨a, ha⟩ : ∃ a, k.parent = some a := by
      cases ha : k.parent with
      | none => simp [precursor?, hk, ha] at h
      | some a => exact ⟨a, rfl⟩
    obtain ⟨list, hlist, hmem⟩ := hl.child_of_parent hk ha
    obtain ⟨earlier, later, e⟩ := List.append_of_mem hmem
    rw [precursor?_child hl hlist e] at h
    split at h
    next hb =>
      obtain ⟨hp, before, between, rfl, hbetween⟩ := lastItem?_eq_some_iff.1 h
      rw [Bool.and_eq_true] at hb
      exact ⟨a, list, before, between, later, hlist, hb.1, e, hp, hb.2, hbetween⟩
    next => cases h
  · rintro ⟨q, list, earlier, between, later, hq, hs, e, hp, hn, hb⟩
    rw [precursor?_child hl hq e, hs, hn]
    exact lastItem?_eq_some_iff.2 ⟨hp, earlier, between, rfl, hb⟩

theorem Adjacent.parent {p n : Nat} (h : t.Adjacent p n) :
    ∃ q, t.IsChild q p ∧ t.IsChild q n := by
  obtain ⟨q, list, earlier, between, later, hq, -, e, -⟩ := h
  exact ⟨q, ⟨list, hq, by rw [e]; simp⟩, ⟨list, hq, by rw [e]; simp⟩⟩

/-- **The pairs of a tree are its neighbours**, all of them. -/
theorem mem_pairs_iff (hl : t.Linked) {p n : Nat} : (p, n) ∈ t.pairs ↔ t.Adjacent p n := by
  obtain ⟨r, hr, -⟩ := hl.root
  have hroot : root < t.size := node?_lt hr
  unfold pairs pairsAmong
  rw [List.mem_filterMap]
  constructor
  · rintro ⟨x, -, hx⟩
    obtain ⟨y, hy, e⟩ := Option.map_eq_some_iff.1 hx
    simp only [Prod.mk.injEq] at e
    obtain ⟨rfl, rfl⟩ := e
    exact (precursor?_eq_some_iff hl).1 hy
  · intro h
    obtain ⟨q, -, hqn⟩ := h.parent
    refine ⟨n, (mem_subtree_iff hroot).2 (hl.below_root hqn.lt.2), ?_⟩
    rw [(precursor?_eq_some_iff hl).2 h]
    rfl

theorem nodup_pairs (hl : t.Linked) : t.pairs.Nodup := by
  obtain ⟨r, hr, -⟩ := hl.root
  apply (nodup_subtree hl (node?_lt hr)).filterMap
  intro x y z hx hy
  obtain ⟨a, -, rfl⟩ := Option.map_eq_some_iff.1 hx
  obtain ⟨b, -, e⟩ := Option.map_eq_some_iff.1 hy
  exact (Prod.mk.inj e).2.symm

theorem dropWhile_ne {earlier later : List Nat} {c : Nat} (h : c ∉ earlier) :
    (earlier ++ c :: later).dropWhile (· != c) = c :: later := by
  rw [List.dropWhile_append_of_pos]
  · simp
  · intro x hx
    have : x ≠ c := fun e => h (e ▸ hx)
    simpa using this

/-- The item behind `p` in a list is the first one behind the place of `p`. -/
theorem Adjacent.find?_behind (hl : t.Linked) {p n : Nat} (h : t.Adjacent p n) :
    ∃ (q : Nat) (list : Node), t.node? q = some list ∧ t.IsChild q p ∧
      ((list.children.dropWhile (· != p)).tail.find? t.isItem) = some n := by
  obtain ⟨q, list, earlier, between, later, hq, -, e, -, hn, hb⟩ := h
  refine ⟨q, list, hq, ⟨list, hq, by rw [e]; simp⟩, ?_⟩
  have hnd := hl.nodup_children hq
  rw [e, List.append_assoc, List.cons_append, List.nodup_append] at hnd
  have hne : p ∉ earlier := fun h => hnd.2.2 p h p List.mem_cons_self rfl
  rw [e, List.append_assoc, List.cons_append, dropWhile_ne hne, List.tail_cons,
    List.find?_eq_some_iff_append]
  exact ⟨hn, between, later, rfl, fun x hx => by simp [hb x hx]⟩

theorem Adjacent.unique (hl : t.Linked) {p n n' : Nat} (h : t.Adjacent p n)
    (h' : t.Adjacent p n') : n = n' := by
  obtain ⟨q, list, hq, hqp, hn⟩ := h.find?_behind hl
  obtain ⟨q', list', hq', hqp', hn'⟩ := h'.find?_behind hl
  rw [hl.parent_unique hqp hqp', hq'] at hq
  cases hq
  rw [hn] at hn'
  exact Option.some.inj hn'

end Interline.SyntaxTree
