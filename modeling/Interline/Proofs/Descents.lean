import Mathlib
import Interline.Proofs.CheckedPairs

/-! # Descents in a grown tree

A grown tree stores each link twice, and the two agree (`Grown.linked`).  What follows for a program
that goes down in it:

* `SyntaxTree.listed` is all child lists in one; every node but the root stands in it once
  (`Linked.count_listed`), so a walk that follows the lists meets it once;
* the depth-first walk from the root passes every node, and none twice (`Linked.subtree_perm`);
* `SyntaxTree.Labels` leads from a label to the first statement below it, and never back, so that
  looking for the statement behind the labels ends after as many rounds as there are nodes from the
  label on (`SourceModel.exists_labelChain`). -/

namespace Interline

namespace SyntaxTree

variable {t : SyntaxTree}

/-! ### Child lists -/

/-- All child lists of a tree, one behind the other. -/
def listed (t : SyntaxTree) : List Nat := t.nodes.toList.flatMap Node.children

theorem mem_listed_iff {c : Nat} : c ∈ t.listed ↔ ∃ a, t.IsChild a c := by
  unfold listed
  rw [List.mem_flatMap]
  constructor
  · rintro ⟨n, hn, hc⟩
    obtain ⟨a, ha⟩ := List.mem_iff_getElem?.1 hn
    exact ⟨a, n, by rwa [Array.getElem?_toList] at ha, hc⟩
  · rintro ⟨a, n, ha, hc⟩
    exact ⟨n, List.mem_of_getElem? (by rwa [Array.getElem?_toList]), hc⟩

theorem Linked.nodup_listed (hl : t.Linked) : t.listed.Nodup := by
  have node : ∀ (a : Nat) (h : a < t.nodes.toList.length), t.node? a = some t.nodes.toList[a] := by
    intro a h
    unfold node?
    rw [← Array.getElem?_toList, List.getElem?_eq_getElem h]
  unfold listed
  rw [List.nodup_flatMap]
  refine ⟨fun n hn => ?_, List.pairwise_iff_getElem.2 fun i j hi hj hij => ?_⟩
  · obtain ⟨a, ha, rfl⟩ := List.getElem_of_mem hn
    exact hl.nodup_children (node a ha)
  · intro c hci hcj
    have := hl.parent_unique ⟨_, node i hi, hci⟩ ⟨_, node j hj, hcj⟩
    omega

theorem Linked.count_listed (hl : t.Linked) {c : Nat} {k : Node} (hk : t.node? c = some k)
    (hroot : c ≠ SyntaxTree.root) : ∃ a n, k.parent = some a ∧ a < c ∧ t.node? a = some n ∧
      c ∈ n.children ∧ t.listed.count c = 1 := by
  cases hp : k.parent with
  | none => exact absurd (hl.eq_root hk hp) hroot
  | some a =>
      have hac := hl.child_of_parent hk hp
      obtain ⟨n, hn, hc⟩ := id hac
      exact ⟨a, n, rfl, hac.lt.1, hn, hc,
        List.count_eq_one_of_mem hl.nodup_listed (mem_listed_iff.2 ⟨a, hac⟩)⟩

/-- **The walk from the root passes every node once.** -/
theorem Linked.subtree_perm (hl : t.Linked) :
    (t.subtree SyntaxTree.root).Perm (List.range t.size) := by
  obtain ⟨r, hr, -⟩ := hl.root
  have hroot : SyntaxTree.root < t.size := node?_lt hr
  refine (List.perm_ext_iff_of_nodup (nodup_subtree hl hroot) List.nodup_range).2 fun a => ?_
  rw [mem_subtree_iff hroot, List.mem_range]
  exact ⟨fun h => h.lt_size hroot, fun h => hl.below_root h⟩

/-! ### Labels -/

/-- Whether a node is a labelled statement. -/
def isLabel (t : SyntaxTree) (id : Nat) : Bool :=
  (t.node? id).any fun n => decide (n.kind = .statement .labeled)

/-- The first statement right below a node. -/
def firstStatement? (t : SyntaxTree) (id : Nat) : Option Nat :=
  (t.node? id).bind fun n => n.children.find? t.isStatement

/-- `a` is a label, and `b` the statement that it stands before. -/
def Labels (t : SyntaxTree) (a b : Nat) : Prop :=
  t.isLabel a = true ∧ t.firstStatement? a = some b

/-- `chain` leads from a node over labels to `last`. -/
def LabelChain (t : SyntaxTree) (id : Nat) (chain : List Nat) (last : Nat) : Prop :=
  chain.head? = some id ∧ chain.getLast? = some last ∧ chain.IsChain t.Labels

theorem Labels.isChild {a b : Nat} (h : t.Labels a b) : t.IsChild a b := by
  obtain ⟨n, hn, hb⟩ := Option.bind_eq_some_iff.1 h.2
  exact ⟨n, hn, List.mem_of_find?_eq_some hb⟩

theorem LabelChain.single (t : SyntaxTree) (id : Nat) : t.LabelChain id [id] id :=
  ⟨rfl, rfl, List.isChain_singleton id⟩

theorem LabelChain.cons {a b last : Nat} {chain : List Nat} (hab : t.Labels a b)
    (h : t.LabelChain b chain last) : t.LabelChain a (a :: chain) last := by
  obtain ⟨hhead, hlast, hchain⟩ := h
  refine ⟨rfl, ?_, List.isChain_cons.2 ⟨fun c hc => ?_, hchain⟩⟩
  · rw [List.getLast?_cons, hlast]
    rfl
  · rw [hhead] at hc
    cases hc
    exact hab

end SyntaxTree

namespace SourceModel

open SyntaxTree (Labels LabelChain)

variable {m : SourceModel}

/-- Looking behind the labels goes along the chain of first statements.  It ends at the first node
that is no label, or at a label without a statement, which it then names. -/
theorem exists_labelChain {id : Nat} (hid : id < m.tree.size) :
    ∃ chain last, m.tree.LabelChain id chain last ∧ chain.length ≤ m.tree.size - id ∧
      last < m.tree.size ∧
      (m.tree.isLabel last = false ∧ m.unwrapLabels id = .ok last ∨
        m.tree.isLabel last = true ∧ m.tree.firstStatement? last = none ∧
          m.unwrapLabels id = .error (.missingLabelBody last)) := by
  fun_induction unwrapLabels m id with
  | case1 id hn =>
      obtain ⟨n, hn'⟩ := SyntaxTree.node?_isSome hid
      rw [hn] at hn'
      cases hn'
  | case2 id n hn hk hc =>
      refine ⟨[id], id, .single _ id, ?_, hid, .inr ⟨?_, ?_, rfl⟩⟩
      · simp only [List.length_singleton]
        omega
      · simp [SyntaxTree.isLabel, hn, hk]
      · simpa [SyntaxTree.firstStatement?, hn] using hc
  | case3 id n hn hk child hc ih =>
      have hlabels : m.tree.Labels id child :=
        ⟨by simp [SyntaxTree.isLabel, hn, hk], by simpa [SyntaxTree.firstStatement?, hn] using hc⟩
      have hlt := hlabels.isChild.lt
      obtain ⟨chain, last, hchain, hlength, hlast, hend⟩ := ih hlt.2
      refine ⟨id :: chain, last, hchain.cons hlabels, ?_, hlast, hend⟩
      rw [List.length_cons]
      omega
  | case4 id n hn hk =>
      refine ⟨[id], id, .single _ id, ?_, hid, .inl ⟨?_, rfl⟩⟩
      · simp only [List.length_singleton]
        omega
      · simp [SyntaxTree.isLabel, hn, hk]

/-! ### All descents -/

/-- **A tree that grew by pushes stays a tree, and every descent in it ends.**  Each node but the
root has a parent with a smaller name and stands in one child list once, that of its parent; the
lists increase; and the walk from the root, by which a check goes through the tree, passes every
node once.  From any node, looking behind the labels goes along the chain of first statements for
no more rounds than there are nodes from there on, and gives its first node that is no label or
names the label at its end that has no statement. -/
theorem descents_end (hg : m.tree.Grown) :
    (∀ c k, m.tree.node? c = some k → c ≠ SyntaxTree.root →
      ∃ a n, k.parent = some a ∧ a < c ∧ m.tree.node? a = some n ∧ c ∈ n.children ∧
        m.tree.listed.count c = 1) ∧
    (∀ a n, m.tree.node? a = some n → n.children.Pairwise (· < ·)) ∧
    (m.tree.subtree SyntaxTree.root).Perm (List.range m.tree.size) ∧
    (∀ p : Policy, p.isEmpty = false → p.check m =
      p.checkPairs m (m.tree.pairsAmong (m.tree.subtree SyntaxTree.root))) ∧
    ∀ id < m.tree.size, ∃ chain last, m.tree.LabelChain id chain last ∧
      chain.length ≤ m.tree.size - id ∧ last < m.tree.size ∧
      (m.tree.isLabel last = false ∧ m.unwrapLabels id = .ok last ∨
        m.tree.isLabel last = true ∧ m.tree.firstStatement? last = none ∧
          m.unwrapLabels id = .error (.missingLabelBody last)) := by
  have hl := hg.linked
  exact ⟨fun c k hk hroot => hl.count_listed hk hroot, fun a n hn => hl.sorted hn,
    hl.subtree_perm, fun p hp => Policy.check_eq hl hp, fun id hid => exists_labelChain hid⟩

/-- The program `a: b: { } c; d:`, with the last label still without a statement; the nodes came
level by level. -/
def nestedLabels : SourceModel :=
  let onLine (a b : Nat) : Span := ⟨a, b, ⟨1, a⟩, ⟨1, b⟩⟩
  { text := "a: b: \x7b \x7d c; d:"
    tokens := .ofList []
    tree := (SyntaxTree.ofRoot (onLine 0 15)).pushAll
      [(0, .statement .labeled, onLine 0 9), (0, .statement (.expression false), onLine 10 12),
        (0, .statement .labeled, onLine 13 15), (1, .other, onLine 0 1),
        (1, .statement .labeled, onLine 3 9), (5, .other, onLine 3 4),
        (5, .statement .block, onLine 6 9), (3, .other, onLine 13 14)] }

theorem descents_end_nestedLabels :
    nestedLabels.tree.Grown ∧
    nestedLabels.tree.subtree SyntaxTree.root = [0, 1, 4, 5, 6, 7, 2, 3, 8] ∧
    (nestedLabels.tree.subtree SyntaxTree.root).Perm (List.range 9) ∧
    (∃ chain, nestedLabels.tree.LabelChain 1 chain 7 ∧ chain.length ≤ 8) ∧
    nestedLabels.unwrapLabels 1 = .ok 7 ∧
    nestedLabels.unwrapLabels 3 = .error (.missingLabelBody 3) := by
  have hg : nestedLabels.tree.Grown := SyntaxTree.Grown.pushAll _ (.root _)
  have horder : nestedLabels.tree.subtree SyntaxTree.root = [0, 1, 4, 5, 6, 7, 2, 3, 8] := by cbv
  have hblock : nestedLabels.unwrapLabels 1 = .ok 7 := by cbv
  have hbare : nestedLabels.unwrapLabels 3 = .error (.missingLabelBody 3) := by cbv
  obtain ⟨-, -, hperm, -, hlabels⟩ := descents_end hg
  obtain ⟨chain, last, hchain, hlength, -, hend⟩ := hlabels 1 (by decide)
  refine ⟨hg, horder, hperm, ⟨chain, ?_, hlength⟩, hblock, hbare⟩
  rw [hblock] at hend
  rcases hend with ⟨-, h⟩ | ⟨-, -, h⟩
  · cases h
    exact hchain
  · cases h

end SourceModel

end Interline
