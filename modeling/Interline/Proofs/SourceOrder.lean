import Mathlib
import Interline.Proofs.BlankLines
import Interline.Proofs.FileGroups

/-! # Violations in the order of the text

A check reports on pairs of neighbours in the pre-order of their second members.  Of two nodes in
pre-order the later one is below the earlier one or behind it (`SyntaxTree.pairwise_subtree`).  A
statement that is below another one may start where that one starts, but not if it has a neighbour
in front, for then the code of the neighbour comes between (`SourceModel.firstToken_lt`).  So the
first tokens of the statements reported on follow one another, and so do the places of the
violations (`LinebreakRule.pairwise_check`). -/

namespace Interline

/-! ### Lines and columns -/

/-- Whether one place is on an earlier line than another one, or on the same line and before it. -/
def Position.Before (p q : Position) : Prop :=
  p.line < q.line ∨ p.line = q.line ∧ p.column < q.column

theorem Position.Before.trans {p q r : Position} (hpq : p.Before q) (hqr : q.Before r) :
    p.Before r := by
  unfold Position.Before at *
  omega

theorem Position.before_positionAfter (p : Position) (c : Char) :
    p.Before (JavaScript.positionAfter p c) := by
  have hsize := Char.utf8Size_pos c
  unfold Position.Before JavaScript.positionAfter
  split
  · exact .inl (Nat.lt_succ_self _)
  · exact .inr ⟨rfl, Nat.lt_add_of_pos_right hsize⟩

theorem Position.before_foldl (p : Position) (c : Char) (cs : List Char) :
    p.Before ((c :: cs).foldl JavaScript.positionAfter p) := by
  induction cs generalizing p c with
  | nil => exact p.before_positionAfter c
  | cons d cs ih => exact (p.before_positionAfter c).trans (ih _ d)

theorem Text.before_of_positionAt? {cs : List Char} {i j : Nat} {p q : Position}
    (hp : positionAt? cs i = some p) (hq : positionAt? cs j = some q) (hij : i < j) :
    p.Before q := by
  obtain ⟨xs, ys, e, rfl, rfl⟩ := positionAt?_eq_some_iff.1 hp
  obtain ⟨zs, ws, e', rfl, rfl⟩ := positionAt?_eq_some_iff.1 hq
  obtain ⟨mid, rfl, -⟩ := exists_between (e.symm.trans e') (Nat.le_of_lt hij)
  rw [List.foldl_append]
  cases mid with
  | nil => simp at hij
  | cons c mid => exact Position.before_foldl _ c mid

/-! ### Nodes in pre-order -/

namespace SyntaxTree

variable {t : SyntaxTree}

/-- Whether a node is above another one or ends before that one starts. -/
def Ahead (t : SyntaxTree) (a b : Nat) : Prop :=
  t.Below a b ∨ ∀ k l : Node, t.node? a = some k → t.node? b = some l → k.span.stop ≤ l.span.start

theorem Nested.ahead_of_below (hn : t.Nested) (hl : t.Linked) {a c d x y : Nat}
    (hc : t.IsChild a c) (hd : t.IsChild a d) (hlt : c < d) (hx : t.Below c x) (hy : t.Below d y) :
    t.Ahead x y := by
  refine .inr fun k l hk hk' => ?_
  obtain ⟨n, hcn⟩ := node?_isSome hc.lt.2
  obtain ⟨n', hdn⟩ := node?_isSome hd.lt.2
  obtain ⟨-, hstop⟩ := TokenStore.contains_iff.1 (hn.contains hx hcn hk)
  obtain ⟨hstart, -⟩ := TokenStore.contains_iff.1 (hn.contains hy hdn hk')
  exact hstop.trans ((hn.stop_le_start hl hc hd hlt hcn hdn).trans hstart)

/-- In pre-order, what comes later is below or behind what comes earlier. -/
theorem pairwise_subtree (hn : t.Nested) (hl : t.Linked) :
    ∀ {a : Nat}, a < t.size → (t.subtree a).Pairwise t.Ahead := by
  intro a
  induction h : t.size - a using Nat.strong_induction_on generalizing a with
  | _ s ih =>
      intro ha
      obtain ⟨n, hna⟩ := node?_isSome ha
      have child : ∀ c ∈ n.children, t.IsChild a c := fun c hc => ⟨n, hna, hc⟩
      rw [subtree_eq hna, List.pairwise_cons, List.pairwise_flatMap]
      refine ⟨fun d hd => .inl ?_, fun c hc => ?_, ?_⟩
      · rw [← mem_subtree_iff ha, subtree_eq hna]
        exact List.mem_cons_of_mem _ hd
      · have hlt := (child c hc).lt
        exact ih (t.size - c) (by omega) rfl hlt.2
      · refine (hl.sorted hna).imp_of_mem fun {c d} hc hd hcd x hx y hy => ?_
        exact hn.ahead_of_below hl (child c hc) (child d hd) hcd
          ((mem_subtree_iff (child c hc).lt.2).1 hx) ((mem_subtree_iff (child d hd).lt.2).1 hy)

theorem pairwise_pairs (hn : t.Nested) (hl : t.Linked) :
    t.pairs.Pairwise fun x y => x.2 ≠ y.2 ∧ t.Ahead x.2 y.2 := by
  obtain ⟨r, hr, -⟩ := hl.root
  have hroot : root < t.size := node?_lt hr
  unfold pairs pairsAmong
  rw [List.pairwise_filterMap]
  refine ((nodup_subtree hl hroot).and (pairwise_subtree hn hl hroot)).imp ?_
  intro a b hab x hx y hy
  obtain ⟨p, -, rfl⟩ := Option.map_eq_some_iff.1 hx
  obtain ⟨q, -, rfl⟩ := Option.map_eq_some_iff.1 hy
  exact hab

end SyntaxTree

/-! ### First tokens -/

/-- Of two statements in pre-order, the later one with a neighbour in front that has code, the later
one starts later. -/
theorem SourceModel.firstToken_lt {m : SourceModel} (hl : m.tree.Linked) (hn : m.tree.Nested)
    (hs : m.tokens.Separate) {a b p l i j : Nat} (hne : a ≠ b) (hab : m.tree.Ahead a b)
    (hpb : m.tree.Adjacent p b) (hlast : m.lastToken p = .ok l) (hi : m.firstToken a = .ok i)
    (hj : m.firstToken b = .ok j) : i < j := by
  obtain ⟨k, hk, hfirst⟩ := exists_firstIn hi
  obtain ⟨n, hb, hfirst'⟩ := exists_firstIn hj
  obtain ⟨⟨t, ht, hin, -⟩, hmin⟩ := (TokenStore.firstIn_eq_some_iff hs).1 hfirst
  obtain ⟨⟨u, hu, hin', -⟩, -⟩ := (TokenStore.firstIn_eq_some_iff hs).1 hfirst'
  rcases hab with hbelow | hapart
  · -- The neighbour in front is below the earlier statement, too, and has a token there.
    obtain ⟨before, after, hp, hb', hle⟩ := hn.exists_nodes hl hpb
    cases hb.symm.trans hb'
    obtain ⟨before', x, hp', hx⟩ := exists_lastIn hlast
    cases hp.symm.trans hp'
    obtain ⟨q, hqp, hqb⟩ := hpb.parent
    have hap : m.tree.Below a p := by
      rcases hbelow.cases_parent with rfl | ⟨q', haq, hqb'⟩
      · exact absurd rfl hne
      · cases hl.parent_unique hqb' hqb
        exact haq.trans (.of_isChild hqp)
    obtain ⟨⟨v, hv, hinv, hcode⟩, -⟩ := (TokenStore.lastIn_eq_some_iff hs).1 hx
    have hcodeIn : m.tokens.CodeIn k.span (fun _ => true) x :=
      ⟨v, hv, Span.contains_trans (hn.contains hap hk hp) hinv, hcode⟩
    exact Nat.lt_of_le_of_lt (hmin x hcodeIn) (hs.lastIn_lt_firstIn hle hx hfirst')
  · have hle := hapart k n hk hb
    rw [TokenStore.contains_iff] at hin hin'
    have hwidth := hs.width ht
    exact hs.lt_of_start_lt ht hu (by omega)

/-! ### Reports -/

namespace Policy

variable {p : Policy} {m : SourceModel}

theorem inspect_eq_ok {a b : Nat} {own : List Report} (h : p.inspect m a b = .ok own) :
    own = [] ∨ ∃ r, own = [r] ∧ p.Reports m (a, b) r := by
  rw [inspect_eq] at h
  obtain ⟨⟨q, k⟩, hv, h⟩ := exists_of_bind_eq_ok h
  cases hs : q.isSatisfiedBy k with
  | true =>
      simp only [hs, if_true] at h
      cases h
      exact .inl rfl
  | false =>
      simp only [hs, Bool.false_eq_true, if_false] at h
      obtain ⟨fix, hfix, h⟩ := exists_of_bind_eq_ok h
      cases h
      exact .inr ⟨_, rfl, rfl, ⟨k, hv⟩, hfix⟩

theorem checkPairs_sublist {pairs : List (Nat × Nat)} {reports : List Report}
    (h : p.checkPairs m pairs = .ok reports) :
    (reports.map fun r => (r.previous, r.node)).Sublist pairs := by
  induction pairs generalizing reports with
  | nil =>
      cases h
      exact List.nil_sublist _
  | cons pair pairs ih =>
      obtain ⟨own, hown, h⟩ := exists_of_bind_eq_ok h
      obtain ⟨others, hothers, h⟩ := exists_of_bind_eq_ok h
      cases h
      rcases inspect_eq_ok hown with rfl | ⟨r, rfl, hpair, -⟩
      · exact (ih hothers).cons pair
      · rw [List.singleton_append, List.map_cons, hpair]
        exact (ih hothers).cons_cons pair

/-- What the walk over some children reports has been judged, if so has what it reports below
them. -/
theorem judged_of_reportsOn {a : Nat} {isList : Bool} {children : List Nat} {previous : Option Nat}
    {above : ∀ c ∈ children, a < c ∧ c < m.tree.size} {reports : List Report}
    (below : ∀ c ∈ children, ∀ inner, p.reportsBelow m c = .ok inner →
      ∀ r ∈ inner, p.Reports m (r.previous, r.node) r)
    (h : p.reportsOn m a isList previous children above = .ok reports) :
    ∀ r ∈ reports, p.Reports m (r.previous, r.node) r := by
  induction children generalizing previous reports with
  | nil =>
      rw [reportsOn] at h
      cases h
      simp
  | cons c children ih =>
      rw [reportsOn_cons] at h
      obtain ⟨own, hown, h⟩ := exists_of_bind_eq_ok h
      obtain ⟨inner, hinner, h⟩ := exists_of_bind_eq_ok h
      obtain ⟨others, hothers, h⟩ := exists_of_bind_eq_ok h
      cases h
      intro r hr
      rw [List.mem_append, List.mem_append] at hr
      rcases hr with (hr | hr) | hr
      · unfold inspectItem at hown
        split at hown
        · rcases inspect_eq_ok hown with rfl | ⟨r', rfl, hreport⟩
          · cases hr
          · rw [List.mem_singleton.1 hr, hreport.1]
            exact hreport
        · cases hown
          cases hr
      · exact below c List.mem_cons_self inner hinner r hr
      · exact ih (fun d hd => below d (List.mem_cons_of_mem _ hd)) hothers r hr

theorem judged_of_reportsBelow {a : Nat} {reports : List Report}
    (h : p.reportsBelow m a = .ok reports) : ∀ r ∈ reports, p.Reports m (r.previous, r.node) r := by
  induction hs : m.tree.size - a using Nat.strong_induction_on generalizing a reports with
  | _ s ih =>
      rw [reportsBelow] at h
      split at h
      · cases h
      next n hn =>
        refine judged_of_reportsOn (fun c hc inner hinner => ?_) h
        have hlt := SyntaxTree.child_bounds hn hc
        exact ih (m.tree.size - c) (by omega) hinner rfl

theorem judged_of_check {reports : List Report} (h : p.check m = .ok reports) :
    ∀ r ∈ reports, p.Reports m (r.previous, r.node) r := by
  unfold check at h
  split at h
  · cases h
    simp
  · exact judged_of_reportsBelow h

theorem pairwise_firstToken (hl : m.tree.Linked) (hn : m.tree.Nested) (hs : m.tokens.Separate)
    {reports : List Report} (h : p.check m = .ok reports) :
    reports.Pairwise fun r r' => ∀ i j, m.firstToken r.node = .ok i →
      m.firstToken r'.node = .ok j → i < j := by
  cases hp : p.isEmpty with
  | true =>
      unfold check at h
      rw [hp] at h
      cases h
      exact .nil
  | false =>
      have hsub := h
      rw [check_eq hl hp] at hsub
      have hpairs := (SyntaxTree.pairwise_pairs hn hl).sublist (checkPairs_sublist hsub)
      refine (List.pairwise_map.1 hpairs).imp_of_mem fun {r r'} hr hr' hrr' i j hi hj => ?_
      obtain ⟨hab, -, ⟨k, hjudge⟩, -⟩ := reports_of_mem hl h hr'
      obtain ⟨l, _, hlast, -⟩ := Linebreaks.count_eq_ok (judge_eq_ok hjudge).2
      exact SourceModel.firstToken_lt hl hn hs hrr'.1 hrr'.2 hab hlast hi hj

end Policy

/-! ### Violations -/

/-- Whether one place of a file is on an earlier line than another one, or before it on the line. -/
def Location.Before (a b : Location) : Prop :=
  a.line < b.line ∨ a.line = b.line ∧ a.column < b.column

theorem exists_mapM_eq_ok {ε α β : Type} {f : α → Except ε β} {xs : List α}
    (h : ∀ x ∈ xs, ∃ y, f x = .ok y) : ∃ ys, xs.mapM f = .ok ys := by
  induction xs with
  | nil => exact ⟨[], rfl⟩
  | cons x xs ih =>
      obtain ⟨⟨y, hy⟩, hxs⟩ := List.forall_mem_cons.1 h
      obtain ⟨ys, hys⟩ := ih hxs
      refine ⟨y :: ys, ?_⟩
      rw [List.mapM_cons, hy, hys]
      rfl

namespace LinebreakRule

variable {r : LinebreakRule} {file : String} {m : SourceModel}

theorem location_of_violation {report : Report} {v : Violation}
    (h : r.violation file m report = .ok v) : ∃ i t, m.firstToken report.node = .ok i ∧
      m.token? i = some t ∧ v.location = .ofSpan file t.span := by
  obtain ⟨i, hi, h⟩ := exists_of_bind_eq_ok h
  split at h
  · cases h
  next t ht =>
    cases h
    exact ⟨i, t, hi, ht, rfl⟩

theorem exists_violation (r : LinebreakRule) (file : String) {report : Report}
    (h : r.policy.Reports m (report.previous, report.node) report) :
    ∃ v, r.violation file m report = .ok v := by
  obtain ⟨-, ⟨k, hjudge⟩, -⟩ := h
  obtain ⟨-, i, -, hi, -⟩ := Linebreaks.count_eq_ok (Policy.judge_eq_ok hjudge).2
  obtain ⟨n, -, hfirst⟩ := SourceModel.exists_firstIn hi
  obtain ⟨t, ht⟩ : ∃ t, m.token? i = some t := TokenStore.exists_of_firstIn hfirst
  unfold violation
  rw [hi]
  simp only [bind, Except.bind, ht]
  exact ⟨_, rfl⟩

/-- **A rule fails where its policy does, and tells each report.**  A check by a rule has an answer
exactly if the check by its policy has one, or else the same error, and for each report there is one
violation, in the same order. -/
theorem check_eq (r : LinebreakRule) (file : String) (m : SourceModel) :
    (∀ e, r.check file m = .error e ↔ r.policy.check m = .error e) ∧
    ∀ reports, r.policy.check m = .ok reports → ∃ vs, r.check file m = .ok vs ∧
      List.Forall₂ (fun report v => r.violation file m report = .ok v) reports vs := by
  have htold : ∀ reports, r.policy.check m = .ok reports → ∃ vs, r.check file m = .ok vs ∧
      List.Forall₂ (fun report v => r.violation file m report = .ok v) reports vs := by
    intro reports h
    obtain ⟨vs, hvs⟩ := exists_mapM_eq_ok fun report hreport =>
      exists_violation r file (Policy.judged_of_check h report hreport)
    refine ⟨vs, ?_, forall₂_of_mapM_eq_ok hvs⟩
    unfold check
    rw [h]
    exact hvs
  refine ⟨fun e => ?_, htold⟩
  cases h : r.policy.check m with
  | error e' =>
      unfold check
      simp only [h, bind, Except.bind, Except.error.injEq]
  | ok reports =>
      obtain ⟨vs, hvs, -⟩ := htold reports h
      rw [hvs]
      simp

theorem pairwise_check (hg : m.tree.Grown) (hp : m.Placed) (hn : m.tree.Nested)
    {vs : List Violation} (h : r.check file m = .ok vs) : vs.Pairwise fun v w =>
      v.location.offset < w.location.offset ∧ v.location.Before w.location := by
  obtain ⟨reports, hreports, hvs⟩ := exists_of_bind_eq_ok h
  refine pairwise_of_forall₂ ?_ (forall₂_of_mapM_eq_ok hvs)
    (Policy.pairwise_firstToken hg.linked hn hp.separate hreports)
  intro report report' v w hv hw hlt
  obtain ⟨i, t, hi, ht, hv⟩ := location_of_violation hv
  obtain ⟨j, u, hj, hu, hw⟩ := location_of_violation hw
  have hstart := hp.separate.start_lt (hlt i j hi hj) ht hu
  have hbefore := Text.before_of_positionAt? (hp.start ht) (hp.start hu) hstart
  rw [hv, hw]
  refine ⟨hstart, ?_⟩
  unfold Position.Before at hbefore
  unfold Location.Before Location.ofSpan
  simp only
  omega

end LinebreakRule

end Interline
