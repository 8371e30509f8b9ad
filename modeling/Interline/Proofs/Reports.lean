import Mathlib
import Interline.Proofs.Coherence

/-! # What a check reports

In a model of a text every pair of neighbours can be judged, so a check has an answer
(`Policy.exists_check`).  It reports the pairs in violation, in the order of the tree, and nothing
else (`Policy.forall₂_reports`).

* `Policy.violation_of_mem`: a report is on neighbours that violate their requirement.
* `Policy.exists_mem_of_violation`: whatever violates its requirement is reported.
* `Policy.eq_of_previous`: no two reports are on the same first statement. -/

namespace Interline

theorem exists_left_of_forall₂ {α β : Type} {R : α → β → Prop} {xs : List α} {ys : List β}
    (h : List.Forall₂ R xs ys) {y : β} (hy : y ∈ ys) : ∃ x ∈ xs, R x y := by
  induction h with
  | nil => cases hy
  | cons hr _ ih =>
      rcases List.mem_cons.1 hy with rfl | hy
      · exact ⟨_, List.mem_cons_self, hr⟩
      · obtain ⟨x, hx, hxy⟩ := ih hy
        exact ⟨x, List.mem_cons_of_mem _ hx, hxy⟩

theorem exists_right_of_forall₂ {α β : Type} {R : α → β → Prop} {xs : List α} {ys : List β}
    (h : List.Forall₂ R xs ys) {x : α} (hx : x ∈ xs) : ∃ y ∈ ys, R x y :=
  exists_left_of_forall₂ h.flip hx

/-- An order of one list is carried over to a list that is related to it, member by member. -/
theorem pairwise_of_forall₂ {α β : Type} {r : α → β → Prop} {s : α → α → Prop} {t : β → β → Prop}
    (hst : ∀ {a b : α} {c d : β}, r a c → r b d → s a b → t c d) {xs : List α} {ys : List β}
    (h : List.Forall₂ r xs ys) (hs : xs.Pairwise s) : ys.Pairwise t := by
  induction h with
  | nil => exact .nil
  | cons hr hrest ih =>
      obtain ⟨hhead, htail⟩ := List.pairwise_cons.1 hs
      refine List.pairwise_cons.2 ⟨fun d hd => ?_, ih htail⟩
      obtain ⟨b, hb, hrd⟩ := exists_left_of_forall₂ hrest hd
      exact hst hr hrd (hhead b hb)

theorem forall₂_of_mapM_eq_ok {ε α β : Type} {f : α → Except ε β} {xs : List α} {ys : List β}
    (h : xs.mapM f = .ok ys) : List.Forall₂ (fun x y => f x = .ok y) xs ys := by
  induction xs generalizing ys with
  | nil =>
      cases h
      exact .nil
  | cons x xs ih =>
      rw [List.mapM_cons] at h
      obtain ⟨y, hy, h⟩ := exists_of_bind_eq_ok h
      obtain ⟨rest, hrest, h⟩ := exists_of_bind_eq_ok h
      cases h
      exact .cons hy (ih hrest)

namespace Policy

variable {p : Policy} {m : SourceModel}

theorem isViolated_eq_true_iff {a b : Nat} : p.isViolated m (a, b) = true ↔
    ∃ r k, p.judge m (a, b) = .ok (r, k) ∧ r.isSatisfiedBy k = false := by
  unfold isViolated
  cases h : p.judge m (a, b) with
  | error e => simp
  | ok v =>
      obtain ⟨r, k⟩ := v
      simp

theorem not_isViolated_of_isEmpty (hp : p.isEmpty = true) (pair : Nat × Nat) :
    ¬p.isViolated m pair = true := by
  intro hviolated
  obtain ⟨a, b⟩ := pair
  obtain ⟨q, k, hj, hs⟩ := isViolated_eq_true_iff.1 hviolated
  have hq := (judge_eq_ok hj).1
  unfold resolve at hq
  rw [List.isEmpty_iff.1 hp] at hq
  cases hq
  cases hs

/-- What a check reports, where every pair can be judged: the pairs in violation. -/
theorem exists_check (hl : m.tree.Linked)
    (hj : ∀ a b, m.tree.Adjacent a b → ∃ v, p.judge m (a, b) = .ok v) :
    ∃ reports, p.check m = .ok reports ∧
      List.Forall₂ (p.Reports m) (m.tree.pairs.filter (p.isViolated m)) reports := by
  cases hp : p.isEmpty with
  | true =>
      have hnone : m.tree.pairs.filter (p.isViolated m) = [] :=
        List.filter_eq_nil_iff.2 fun q _ => not_isViolated_of_isEmpty hp q
      unfold check
      rw [hp, hnone]
      exact ⟨[], rfl, .nil⟩
  | false =>
      rw [check_eq hl hp]
      exact checkPairs_ok hp m.tree.pairs fun q hq =>
        hj q.1 q.2 ((SyntaxTree.mem_pairs_iff hl).1 hq)

theorem exists_answer (hl : m.tree.Linked)
    (hj : ∀ a b, m.tree.Adjacent a b → ∃ v, p.judge m (a, b) = .ok v) :
    ∃ reports, p.check m = .ok reports := by
  obtain ⟨reports, hreports, -⟩ := exists_check hl hj
  exact ⟨reports, hreports⟩

theorem check_eq_nil (hl : m.tree.Linked)
    (hj : ∀ a b, m.tree.Adjacent a b →
      ∃ r k, p.judge m (a, b) = .ok (r, k) ∧ r.isSatisfiedBy k = true) :
    p.check m = .ok [] := by
  obtain ⟨reports, hreports, hall⟩ := exists_check hl fun a b h => by
    obtain ⟨r, k, hv, -⟩ := hj a b h
    exact ⟨_, hv⟩
  have hnone : m.tree.pairs.filter (p.isViolated m) = [] := by
    apply List.filter_eq_nil_iff.2
    rintro ⟨a, b⟩ hq hviolated
    obtain ⟨r, k, hv, hs⟩ := hj a b ((SyntaxTree.mem_pairs_iff hl).1 hq)
    obtain ⟨r', k', hv', hs'⟩ := isViolated_eq_true_iff.1 hviolated
    cases hv.symm.trans hv'
    exact absurd hs (by simp [hs'])
  rw [hnone, List.forall₂_nil_left_iff] at hall
  rw [hreports, hall]

section coherent

variable (hm : m.Coherent NodeKind.isListItem) (hlab : m.LabelsHold)
include hm hlab

theorem exists_verdict (p : Policy) {a b : Nat} (h : m.tree.Adjacent a b) :
    ∃ v, p.judge m (a, b) = .ok v := by
  obtain ⟨_, _, hj⟩ := hm.covered.exists_judge hm.placed.separate hlab p h
  exact ⟨_, hj⟩

theorem exists_reports (p : Policy) : ∃ reports, p.check m = .ok reports :=
  exists_answer hm.grown.linked fun _ _ => exists_verdict hm hlab p

variable {reports : List Report} (h : p.check m = .ok reports)
include h

/-- **The reports of a check are those on the pairs in violation.** -/
theorem forall₂_reports :
    List.Forall₂ (p.Reports m) (m.tree.pairs.filter (p.isViolated m)) reports := by
  obtain ⟨reports', hreports, hall⟩ :=
    exists_check hm.grown.linked fun a b => exists_verdict hm hlab p
  cases h.symm.trans hreports
  exact hall

theorem violation_of_mem {report : Report} (hr : report ∈ reports) :
    m.tree.Adjacent report.previous report.node ∧
      (∃ k, p.judge m (report.previous, report.node) = .ok (report.requirement, k) ∧
        report.requirement.isSatisfiedBy k = false) ∧
      Repair.propose report.requirement m report.previous report.node = .ok report.fix := by
  obtain ⟨⟨a, b⟩, hpair, hsame, ⟨k, hj⟩, hpropose⟩ :=
    exists_left_of_forall₂ (forall₂_reports hm hlab h) hr
  cases hsame
  rw [List.mem_filter] at hpair
  obtain ⟨q, k', hj', hs⟩ := isViolated_eq_true_iff.1 hpair.2
  rw [hj] at hj'
  cases hj'
  exact ⟨(SyntaxTree.mem_pairs_iff hm.grown.linked).1 hpair.1, ⟨k, hj, hs⟩, hpropose⟩

theorem exists_mem_of_violation {a b k : Nat} {q : Requirement} (hab : m.tree.Adjacent a b)
    (hj : p.judge m (a, b) = .ok (q, k)) (hs : q.isSatisfiedBy k = false) :
    ∃ fix, ⟨a, b, q, fix⟩ ∈ reports ∧ Repair.propose q m a b = .ok fix := by
  have hpair : (a, b) ∈ m.tree.pairs.filter (p.isViolated m) :=
    List.mem_filter.2 ⟨(SyntaxTree.mem_pairs_iff hm.grown.linked).2 hab,
      isViolated_eq_true_iff.2 ⟨q, k, hj, hs⟩⟩
  obtain ⟨⟨a', b', q', fix⟩, hr, hsame, ⟨k', hj'⟩, hpropose⟩ :=
    exists_right_of_forall₂ (forall₂_reports hm hlab h) hpair
  cases hsame
  rw [hj] at hj'
  cases hj'
  exact ⟨fix, hr, hpropose⟩

theorem eq_of_previous {r r' : Report} (hr : r ∈ reports) (hr' : r' ∈ reports)
    (he : r.previous = r'.previous) : r = r' := by
  obtain ⟨hab, ⟨k, hj, -⟩, hfix⟩ := violation_of_mem hm hlab h hr
  obtain ⟨hcd, ⟨k', hj', -⟩, hfix'⟩ := violation_of_mem hm hlab h hr'
  obtain ⟨a, b, q, fix⟩ := r
  obtain ⟨c, d, q', fix'⟩ := r'
  simp only at he hab hcd hj hj' hfix hfix'
  subst he
  obtain rfl := hab.unique hm.grown.linked hcd
  rw [hj] at hj'
  cases hj'
  rw [hfix] at hfix'
  cases hfix'
  rfl

theorem nodup_reports : reports.Nodup := by
  have hpairs : reports.map (fun r => (r.previous, r.node)) =
      m.tree.pairs.filter (p.isViolated m) := by
    have hall := forall₂_reports hm hlab h
    have hsame := List.Forall₂.imp (fun _ _ hr => hr.1.symm) hall
    exact (List.forall₂_eq_eq_eq ▸ List.forall₂_map_right_iff.2 hsame).symm
  have hnodup := (SyntaxTree.nodup_pairs hm.grown.linked).filter (p.isViolated m)
  rw [← hpairs] at hnodup
  exact hnodup.of_map _

end coherent

end Policy

end Interline
