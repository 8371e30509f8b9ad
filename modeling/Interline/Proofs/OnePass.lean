import Mathlib
import Interline.Proofs.LastTokens
import Interline.Proofs.ModelCheck
import Interline.Proofs.Reports
import Interline.Proofs.SparingEdits

/-! # One pass is enough

A policy that never forbids line breaks is repaired by insertions alone.  After one pass over them a
check of the re-based model has nothing left to report (`Policy.check_rebase`).

Each insertion stands behind the last token of a statement and brings at least one line feed
(`Policy.Asks`); of several at one place one is accepted.  So no gap gets smaller, and what has to
be shown is that

* a statement whose neighbour asks for more than it has is read as before, semicolon or not
  (`isLeadingSemicolon_rebase`);
* the insertion accepted for it is large enough, even if another pair has asked for it
  (`leavesLine_rebase`). -/

namespace Interline

open Replacement

/-! ### Line breaks to insert -/

namespace Repair

variable {m : SourceModel}

/-- Line ends to be put in behind a token. -/
def breaks (m : SourceModel) (t : Token) (copies : Nat) : Replacement :=
  .insertion t.span.stop (String.ofList (Text.lineEnds m.text.toList copies))

theorem count_breaks (m : SourceModel) (t : Token) (copies : Nat) :
    (breaks m t copies).newText.toList.count '\n' = copies := by
  simp [breaks, insertion, Text.count_lineEnds]

theorem breakAfter_eq {i : Nat} {t u : Token} (ht : m.token? i = some t)
    (hu : m.token? (i + 1) = some u) (blank : Bool) :
    breakAfter m i blank = some
      (breaks m t (if blank && u.span.startPos.line == t.span.stopPos.line then 2 else 1)) := by
  have hnext : (m.tokens.after i true).bind m.token? = some u := by
    rw [TokenStore.after_true (TokenStore.get?_lt hu)]
    exact hu
  unfold breakAfter breaks Text.lineEnds
  rw [hnext, ht]
  simp only [Option.bind_eq_bind, Option.bind_some, pure]
  split <;> simp

theorem exists_breakAfter {i : Nat} {t u : Token} (ht : m.token? i = some t)
    (hu : m.token? (i + 1) = some u) (blank : Bool) :
    ∃ r, breakAfter m i blank = some r ∧ r.start = t.span.stop ∧ r.stop = t.span.stop ∧
      r.newText.toList.count '\n' =
        if blank && u.span.startPos.line == t.span.stopPos.line then 2 else 1 :=
  ⟨_, breakAfter_eq ht hu blank, rfl, rfl, count_breaks m t _⟩

end Repair

namespace Policy

variable {p : Policy} {m : SourceModel}

/-- The pair `a`, `b` is in violation, and `r` is the line break behind the last token `i` of `a`
that is to repair it. -/
structure Asks (p : Policy) (m : SourceModel) (a b i : Nat) (r : Replacement) : Prop where
  adjacent : m.tree.Adjacent a b
  last : m.lastToken a = .ok i
  violated : ∃ requirement linebreaks, p.judge m (a, b) = .ok (requirement, linebreaks) ∧
    requirement.isSatisfiedBy linebreaks = false ∧
    Repair.breakAfter m i (requirement == .blankLine) = some r

/-- The edits of a pass: all insertions that are asked for, and no others. -/
structure Pass (p : Policy) (m : SourceModel) (fixes : List Replacement) : Prop where
  asked : ∀ r ∈ fixes, ∃ a b i, p.Asks m a b i r
  served : ∀ {a b i : Nat} {r : Replacement}, p.Asks m a b i r → r ∈ fixes

theorem requirement_ne_never (hnever : ∀ r ∈ p.rules, r.requirement ≠ .never)
    (q : PolicyRule → Bool) :
    ((p.rules.reverse.find? q).map PolicyRule.requirement).getD .any ≠ .never := by
  cases h : p.rules.reverse.find? q with
  | none => simp
  | some r => exact hnever r (List.mem_reverse.1 (List.mem_of_find?_eq_some h))

theorem unmet_cases {r : Requirement} {k : Nat} (hne : r ≠ .never)
    (h : r.isSatisfiedBy k = false) : (r = .always ∧ k < 1) ∨ (r = .blankLine ∧ k < 2) := by
  cases r with
  | any => cases h
  | never => exact absurd rfl hne
  | always => exact .inl ⟨rfl, by simpa [Requirement.isSatisfiedBy] using h⟩
  | blankLine => exact .inr ⟨rfl, by simpa [Requirement.isSatisfiedBy] using h⟩

theorem propose_eq {r : Requirement} {k a b i : Nat} (hne : r ≠ .never)
    (h : r.isSatisfiedBy k = false) (hi : m.lastToken a = .ok i) :
    Repair.propose r m a b = .ok (Repair.breakAfter m i (r == .blankLine)) := by
  unfold Repair.propose
  rcases unmet_cases hne h with ⟨rfl, -⟩ | ⟨rfl, -⟩ <;> rw [hi] <;> rfl

/-! ### The edits of a pass -/

section pass

variable (hm : m.Coherent NodeKind.isListItem) (hlab : m.LabelsHold)
  (hnever : ∀ r ∈ p.rules, r.requirement ≠ .never)
include hm hlab hnever

theorem ne_never_of_judge {a b k : Nat} {r : Requirement} (h : m.tree.Adjacent a b)
    (hj : p.judge m (a, b) = .ok (r, k)) : r ≠ .never := by
  obtain ⟨_, _, hj'⟩ := hm.covered.exists_judge hm.placed.separate hlab p h
  rw [hj] at hj'
  cases hj'
  exact requirement_ne_never hnever _

theorem exists_pass :
    ∃ reports, p.check m = .ok reports ∧ p.Pass m (reports.filterMap Report.fix) := by
  obtain ⟨reports, hreports⟩ := exists_reports hm hlab p
  refine ⟨reports, hreports, ⟨?_, ?_⟩⟩
  · intro r hr
    obtain ⟨report, hmem, hfix⟩ := List.mem_filterMap.1 hr
    obtain ⟨hab, ⟨k, hj, hs⟩, hpropose⟩ := violation_of_mem hm hlab hreports hmem
    obtain ⟨i, -, hi, -⟩ := Linebreaks.count_eq_ok (judge_eq_ok hj).2
    rw [propose_eq (ne_never_of_judge hm hlab hnever hab hj) hs hi, hfix] at hpropose
    exact ⟨_, _, i, hab, hi, _, k, hj, hs, Except.ok.inj hpropose⟩
  · rintro a b i r ⟨hab, hi, q, k, hj, hs, hbreak⟩
    obtain ⟨fix, hmem, hpropose⟩ := exists_mem_of_violation hm hlab hreports hab hj hs
    rw [propose_eq (ne_never_of_judge hm hlab hnever hab hj) hs hi, hbreak] at hpropose
    exact List.mem_filterMap.2 ⟨_, hmem, (Except.ok.inj hpropose).symm⟩

end pass

/-! ### Insertions behind tokens -/

section insertions

variable {fixes : List Replacement} (hm : m.Coherent NodeKind.isListItem)
include hm

theorem Asks.exists_token {a b i : Nat} {r : Replacement} (h : p.Asks m a b i r) :
    ∃ t u, m.token? i = some t ∧ m.token? (i + 1) = some u ∧ m.tokens.CountsAt false i ∧
      r.start = t.span.stop ∧ r.stop = r.start ∧ ∃ q k, p.judge m (a, b) = .ok (q, k) ∧
        q.isSatisfiedBy k = false ∧ r.newText.toList.count '\n' =
          if q == .blankLine && u.span.startPos.line == t.span.stopPos.line then 2 else 1 := by
  obtain ⟨hab, hi, q, k, hj, hs, hbreak⟩ := h
  obtain ⟨-, f, -, hf, -⟩ := Linebreaks.count_eq_ok (judge_eq_ok hj).2
  obtain ⟨hif, hcode⟩ := hm.lastToken_lt hab hi hf
  obtain ⟨t, ht, -⟩ := id hcode
  obtain ⟨after, -, hf⟩ := SourceModel.exists_firstIn hf
  have hsize := ((TokenStore.firstIn_eq_some_iff hm.placed.separate).1 hf).1.lt_size
  obtain ⟨u, hu⟩ := TokenStore.get?_isSome (s := m.tokens) (i := i + 1) (by omega)
  obtain ⟨r', hbreak', hstart, hstop, hcount⟩ :=
    Repair.exists_breakAfter ht hu (q == .blankLine)
  rw [hbreak] at hbreak'
  cases hbreak'
  exact ⟨t, u, ht, hu, hcode, hstart, by omega, q, k, hj, hs, hcount⟩

theorem Asks.count_pos {a b i : Nat} {r : Replacement} (h : p.Asks m a b i r) :
    1 ≤ r.newText.toList.count '\n' := by
  obtain ⟨t, u, -, -, -, -, -, q, k, -, -, hcount⟩ := h.exists_token hm
  rw [hcount]
  split <;> omega

theorem exists_asks_of_unmet {a b i k : Nat} {q : Requirement} (hab : m.tree.Adjacent a b)
    (hi : m.lastToken a = .ok i) (hj : p.judge m (a, b) = .ok (q, k))
    (hs : q.isSatisfiedBy k = false) :
    ∃ r, p.Asks m a b i r := by
  obtain ⟨-, f, -, hf, -⟩ := Linebreaks.count_eq_ok (judge_eq_ok hj).2
  obtain ⟨hif, t, ht, -⟩ := hm.lastToken_lt hab hi hf
  obtain ⟨after, -, hf⟩ := SourceModel.exists_firstIn hf
  have hsize := ((TokenStore.firstIn_eq_some_iff hm.placed.separate).1 hf).1.lt_size
  obtain ⟨u, hu⟩ := TokenStore.get?_isSome (s := m.tokens) (i := i + 1) (by omega)
  obtain ⟨r, hbreak, -⟩ := Repair.exists_breakAfter ht hu (q == .blankLine)
  exact ⟨r, hab, hi, q, k, hj, hs, hbreak⟩

namespace Pass

variable (hpass : p.Pass m fixes)
include hpass

theorem insertions : ∀ r ∈ fixes, r.stop = r.start := by
  intro r hr
  obtain ⟨a, b, i, h⟩ := hpass.asked r hr
  obtain ⟨-, -, -, -, -, -, hstop, -⟩ := h.exists_token hm
  exact hstop

theorem spares : m.tokens.Spares (accepted m.text.toList fixes) := by
  intro r hr j u hu
  obtain ⟨a, b, i, h⟩ := hpass.asked r (mem_accepted hr).1
  obtain ⟨t, -, ht, -, -, hstart, hstop, -⟩ := h.exists_token hm
  rcases Nat.lt_or_ge i j with hij | hij
  · have := hm.placed.separate.apart hij ht hu
    omega
  · have := hm.placed.separate.stop_le hij hu ht
    omega

/-- Whatever is asked for, some insertion at its place is accepted. -/
theorem exists_accepted {a b i : Nat} {r : Replacement} (h : p.Asks m a b i r) :
    ∃ c d r', p.Asks m c d i r' ∧ r' ∈ accepted m.text.toList fixes := by
  obtain ⟨t, -, ht, -, -, hstart, hstop, -⟩ := h.exists_token hm
  have hbound := Text.isBoundary_of_positionAt? (hm.placed.stop ht)
  have hfits : r.fits m.text.toList = true := by
    rw [fits_iff, hstop, hstart]
    exact ⟨Nat.le_refl _, hbound, hbound⟩
  obtain ⟨r', hr', hsame⟩ :=
    Replacement.exists_accepted (compatible_of_insertions (hpass.insertions hm)) (hpass.served h)
      hfits
  obtain ⟨c, d, j, h'⟩ := hpass.asked r' (mem_accepted hr').1
  obtain ⟨t', -, ht', -, -, hstart', -⟩ := h'.exists_token hm
  obtain rfl := hm.placed.separate.eq_of_stop_eq ht' ht (by omega)
  exact ⟨c, d, r', h', hr'⟩

theorem addedLines_lt {a b i j : Nat} {r : Replacement} {t u : Token} (h : p.Asks m a b i r)
    (hij : i < j) (ht : m.token? i = some t) (hu : m.token? j = some u) :
    addedLines (accepted m.text.toList fixes) t.span.stop <
      addedLines (accepted m.text.toList fixes) u.span.stop := by
  obtain ⟨c, d, r', h', hr'⟩ := hpass.exists_accepted hm h
  obtain ⟨t', -, ht', -, -, hstart, -⟩ := h'.exists_token hm
  rw [ht] at ht'
  cases ht'
  have := hm.placed.separate.stop_lt hij ht hu
  have := addedLines_add (p := t.span.stop) (q := u.span.stop) (by omega) (by omega) hr'
  have := h'.count_pos hm
  omega

theorem exists_asks {l f : Nat} {t u : Token} (ht : m.token? l = some t) (hu : m.token? f = some u)
    (h : addedLines (accepted m.text.toList fixes) t.span.stop <
      addedLines (accepted m.text.toList fixes) u.span.stop) :
    ∃ a b i r, p.Asks m a b i r ∧ l ≤ i ∧ i < f ∧ m.tokens.CountsAt false i := by
  obtain ⟨r, hr, hle, hlt⟩ := exists_of_addedLines_lt h
  obtain ⟨a, b, i, hasks⟩ := hpass.asked r (mem_accepted hr).1
  obtain ⟨v, -, hv, -, hcode, hstart, -⟩ := hasks.exists_token hm
  refine ⟨a, b, i, r, hasks, ?_, ?_, hcode⟩
  · by_contra hil
    have := hm.placed.separate.stop_lt (Nat.lt_of_not_le hil) hv ht
    omega
  · by_contra hfi
    have := hm.placed.separate.stop_le (Nat.le_of_not_lt hfi) hu hv
    omega

end Pass

end insertions

/-! ### Statements of the edited text -/

namespace Pass

variable {fixes : List Replacement} (hm : m.Coherent NodeKind.isListItem)
  (hpass : p.Pass m fixes) {a b : Nat} (hab : m.tree.Adjacent a b)
include hm hpass

/-- A token of the edited text: the old one, moved down by what has been added above its end. -/
theorem token?_lines {i : Nat} {t : Token} (ht : m.token? i = some t) :
    ∃ t', (m.rebase fixes).token? i = some t' ∧
      t' = t.rebase (m.rebase fixes).text.toList (accepted m.text.toList fixes) ∧
      t'.span.startPos.line =
        t.span.startPos.line + addedLines (accepted m.text.toList fixes) t.span.stop ∧
      t'.span.stopPos.line =
        t.span.stopPos.line + addedLines (accepted m.text.toList fixes) t.span.stop :=
  SourceModel.token?_rebase_lines hm.placed (hpass.spares hm) (hpass.insertions hm) ht

theorem leavesLine_of_leavesLine {j : Nat} (h : m.tokens.LeavesLine j) :
    (m.rebase fixes).tokens.LeavesLine j := by
  obtain ⟨t, u, ht, hu, hgap⟩ := h
  obtain ⟨t', ht', -, -, hstop⟩ := hpass.token?_lines hm ht
  obtain ⟨u', hu', -, hstart, -⟩ := hpass.token?_lines hm hu
  have := hm.placed.separate.addedLines_le (accepted m.text.toList fixes) (Nat.le_succ j) ht hu
  exact ⟨t', u', ht', hu', by omega⟩

include hab

theorem guards_rebase {n : Node} {l j : Nat} (ha : m.tree.node? a = some n)
    (hl : m.tokens.lastIn n.span (fun _ => true) = some l) (hg : m.Guards n l j) :
    (m.rebase fixes).Guards
      (n.rebase (m.rebase fixes).text.toList (accepted m.text.toList fixes)) l j := by
  obtain ⟨s, t, f, u, hs, hsemi, hbef, ht, haft, hu, hin, hne, heq⟩ := id hg
  obtain ⟨⟨hjl, -⟩, -⟩ := TokenStore.before_eq_some_iff.1 hbef
  obtain ⟨⟨hlf, -⟩, hmin⟩ := TokenStore.after_eq_some_iff.1 haft
  obtain ⟨s', hs', rfl, hsstart, hsstop⟩ := hpass.token?_lines hm hs
  obtain ⟨t', ht', rfl, -, htstop⟩ := hpass.token?_lines hm ht
  obtain ⟨u', hu', rfl, hustart, -⟩ := hpass.token?_lines hm hu
  refine ⟨_, _, f, _, hs', hsemi, ?_, ht', ?_, hu', ?_, ?_, ?_⟩
  · exact (TokenStore.before_rebase l false).trans hbef
  · exact (TokenStore.after_rebase l false).trans haft
  · exact moved_mono _ hin _ _
  · have := hm.placed.lined.across hjl ht hs
    have := hm.placed.separate.addedLines_le (accepted m.text.toList fixes) (Nat.le_of_lt hjl) ht hs
    omega
  · have hle := hm.placed.separate.addedLines_le (accepted m.text.toList fixes)
      (Nat.le_of_lt hlf) hs hu
    rcases Nat.lt_or_eq_of_le hle with hlt | hsame
    · -- An insertion on the line would have to stand behind the semicolon, which ends nothing.
      obtain ⟨c, d, i, r, hasks, hli, hif, hcode⟩ := hpass.exists_asks hm hs hu hlt
      have hil : i = l := by
        by_contra hne
        have := hmin i (by omega) hcode
        omega
      rw [hil] at hasks
      exact absurd hasks.last (hm.lastToken_ne_of_guards hab hasks.adjacent ha hl hg)
    · omega

/-- A semicolon that guards the next statement after the pass has done so before, or has shared its
line with the neighbour all along. -/
theorem guards_or_joined (hc : m.CommentsBetween) {n after : Node} {l f j : Nat}
    (ha : m.tree.node? a = some n) (hb : m.tree.node? b = some after)
    (hl : m.tokens.lastIn n.span (fun _ => true) = some l)
    (hf : m.tokens.firstIn after.span = some f)
    (hg : (m.rebase fixes).Guards
      (n.rebase (m.rebase fixes).text.toList (accepted m.text.toList fixes)) l j) :
    m.Guards n l j ∨ m.lastToken a = .ok l ∧ l < f ∧ ∃ s u, m.token? l = some s ∧
      m.token? f = some u ∧ u.span.startPos.line ≤ s.span.stopPos.line ∧
      addedLines (accepted m.text.toList fixes) u.span.stop ≤
        addedLines (accepted m.text.toList fixes) s.span.stop := by
  obtain ⟨s', t', f', u', hs', hsemi, hbef, ht', haft, hu', hin, hne, heq⟩ := hg
  replace hbef : m.tokens.before l false = some j :=
    (TokenStore.before_rebase l false).symm.trans hbef
  replace haft : m.tokens.after l false = some f' :=
    (TokenStore.after_rebase l false).symm.trans haft
  rw [hm.after_lastIn hc hab ha hb hl hf] at haft
  cases haft
  obtain ⟨s, hs, rfl⟩ := SourceModel.token?_rebase_eq_some hs'
  obtain ⟨t, ht, rfl⟩ := SourceModel.token?_rebase_eq_some ht'
  obtain ⟨u, hu, rfl⟩ := SourceModel.token?_rebase_eq_some hu'
  obtain ⟨_, -, rfl, hsstart, hsstop⟩ := hpass.token?_lines hm hs
  obtain ⟨_, -, rfl, -, htstop⟩ := hpass.token?_lines hm ht
  obtain ⟨_, -, rfl, hustart, -⟩ := hpass.token?_lines hm hu
  have haft := hm.after_lastIn hc hab ha hb hl hf
  obtain ⟨⟨hlf, -⟩, -⟩ := TokenStore.after_eq_some_iff.1 haft
  have hline := hm.placed.lined.across hlf hs hu
  have hadd := hm.placed.separate.addedLines_le (accepted m.text.toList fixes)
      (Nat.le_of_lt hlf) hs hu
  by_cases hold : m.Guards n l j
  · exact .inl hold
  · have hlast : m.lastToken a = .ok l := by
      refine SourceModel.lastToken_of_not_guards ha hl fun i hgi => hold ?_
      obtain ⟨-, -, -, -, -, -, hbef', -⟩ := id hgi
      rw [hbef] at hbef'
      cases hbef'
      exact hgi
    exact .inr ⟨hlast, hlf, s, u, hs, hu, by omega, by omega⟩

theorem guards_of_rebase (hc : m.CommentsBetween) {n after : Node} {l f j k : Nat}
    {q : Requirement} (ha : m.tree.node? a = some n) (hb : m.tree.node? b = some after)
    (hl : m.tokens.lastIn n.span (fun _ => true) = some l)
    (hf : m.tokens.firstIn after.span = some f) (hj : p.judge m (a, b) = .ok (q, k))
    (hq : q.isSatisfiedBy 0 = false)
    (hg : (m.rebase fixes).Guards
      (n.rebase (m.rebase fixes).text.toList (accepted m.text.toList fixes)) l j) :
    m.Guards n l j := by
  rcases hpass.guards_or_joined hm hab hc ha hb hl hf hg with
    hold | ⟨hlast, hlf, s, u, hs, hu, hline, hadd⟩
  · exact hold
  · -- Then the neighbour lacks line breaks, and an insertion has set it apart.
    have hzero : k = 0 := by
      have hk := linebreaks_of_judge hj hlast (SourceModel.firstToken_eq hb hf)
      have := Linebreaks.one_le_betweenTokens_iff hs hu
      omega
    rw [hzero] at hj
    obtain ⟨r, hr⟩ := exists_asks_of_unmet hm hab hlast hj hq
    have := hpass.addedLines_lt hm hr hlf hs hu
    omega

/-- A blank line that is asked for is there. -/
theorem leavesLine_rebase (hc : m.CommentsBetween) (hnever : ∀ {a b k : Nat} {q : Requirement},
      m.tree.Adjacent a b → p.judge m (a, b) = .ok (q, k) → q ≠ .never) {i k : Nat}
    (hi : m.lastToken a = .ok i) (hj : p.judge m (a, b) = .ok (.blankLine, k)) (hk : k < 2) :
    (m.rebase fixes).tokens.LeavesLine i := by
  obtain ⟨r, hr⟩ := exists_asks_of_unmet hm hab hi hj (by
    simpa [Requirement.isSatisfiedBy] using hk)
  obtain ⟨c, d, r', hr', hacc⟩ := hpass.exists_accepted hm hr
  obtain ⟨t, u, ht, hu, -, hstart, -, q, k', hj', hs', hcount⟩ := hr'.exists_token hm
  have hline := hm.placed.lined.across (Nat.lt_succ_self i) ht hu
  have hwide : t.span.stopPos.line + 2 ≤
      u.span.startPos.line + r'.newText.toList.count '\n' := by
    rw [hcount]
    rcases unmet_cases (hnever hr'.adjacent hj') hs' with ⟨rfl, hk'⟩ | ⟨rfl, -⟩
    · -- The insertion is for another pair, which has a line break as little as this one.
      exfalso
      by_cases hac : a = c
      · subst hac
        obtain rfl := hab.unique hm.grown.linked hr'.adjacent
        rw [hj] at hj'
        cases hj'
      · obtain ⟨-, f, -, hf, -⟩ := Linebreaks.count_eq_ok (judge_eq_ok hj').2
        have hcount := linebreaks_of_judge hj' hr'.last hf
        obtain ⟨v, hv⟩ := SourceModel.exists_token_of_firstToken hm.placed.separate hf
        have hlater := hm.lines_of_common_end hc hab hr'.adjacent hac hi hr'.last hf ht hv
        have := (Linebreaks.one_le_betweenTokens_iff ht hv).2 hlater
        omega
    · by_cases hsame : u.span.startPos.line = t.span.stopPos.line
      · simp [hsame]
      · simp [hsame]
        omega
  obtain ⟨t', ht', -, -, htstop⟩ := hpass.token?_lines hm ht
  obtain ⟨u', hu', -, hustart, -⟩ := hpass.token?_lines hm hu
  have hlt := hm.placed.separate.stop_lt (Nat.lt_succ_self i) ht hu
  have := addedLines_add (p := t.span.stop) (q := u.span.stop) (by omega) (by omega) hacc
  exact ⟨t', u', ht', hu', by omega⟩

end Pass

/-! ### The second check -/

section second

variable {fixes : List Replacement} (hm : m.Coherent NodeKind.isListItem) (hlab : m.LabelsHold)
  (hc : m.CommentsBetween) (hpass : p.Pass m fixes)
  (hnever : ∀ r ∈ p.rules, r.requirement ≠ .never)
include hm hlab hc hpass hnever

theorem isSatisfiedBy_rebase {a b i f k : Nat} {q : Requirement} (hab : m.tree.Adjacent a b)
    (hi : m.lastToken a = .ok i) (hf : m.firstToken b = .ok f)
    (hj : p.judge m (a, b) = .ok (q, k)) :
    q.isSatisfiedBy (Linebreaks.betweenTokens (m.rebase fixes).tokens i f) = true := by
  have hk := linebreaks_of_judge hj hi hf
  obtain ⟨hif, t, ht, -⟩ := hm.lastToken_lt hab hi hf
  obtain ⟨u, hu⟩ := SourceModel.exists_token_of_firstToken hm.placed.separate hf
  obtain ⟨t', ht', -, -, htstop⟩ := hpass.token?_lines hm ht
  obtain ⟨u', hu', -, hustart, -⟩ := hpass.token?_lines hm hu
  have hline := hm.placed.lined.across hif ht hu
  have hplaced := SourceModel.Placed.rebase hm.placed (hpass.spares hm)
  cases q with
  | any => rfl
  | never => exact absurd rfl (ne_never_of_judge hm hlab hnever hab hj)
  | always =>
      have hone : 1 ≤ Linebreaks.betweenTokens (m.rebase fixes).tokens i f := by
        rw [Linebreaks.one_le_betweenTokens_iff ht' hu']
        by_cases hmet : 1 ≤ k
        · rw [hk, Linebreaks.one_le_betweenTokens_iff ht hu] at hmet
          have := hm.placed.separate.addedLines_le (accepted m.text.toList fixes)
            (Nat.le_of_lt hif) ht hu
          omega
        · obtain ⟨r, hr⟩ := exists_asks_of_unmet hm hab hi hj (by
            simpa [Requirement.isSatisfiedBy] using hmet)
          have := hpass.addedLines_lt hm hr hif ht hu
          omega
      simpa [Requirement.isSatisfiedBy] using hone
  | blankLine =>
      have htwo : 2 ≤ Linebreaks.betweenTokens (m.rebase fixes).tokens i f := by
        rw [Linebreaks.two_le_betweenTokens_iff hplaced.ascending hplaced.lined ht' hu' hif]
        by_cases hmet : 2 ≤ k
        · rw [hk, Linebreaks.two_le_betweenTokens_iff hm.placed.ascending hm.placed.lined ht hu
            hif] at hmet
          obtain ⟨j, hij, hjf, hleaves⟩ := hmet
          exact ⟨j, hij, hjf, hpass.leavesLine_of_leavesLine hm hleaves⟩
        · exact ⟨i, Nat.le_refl i, hif, hpass.leavesLine_rebase hm hab hc
            (ne_never_of_judge hm hlab hnever) hi hj (by omega)⟩
      simpa [Requirement.isSatisfiedBy] using htwo

omit hlab hnever in
theorem isLeadingSemicolon_rebase {a b l f k : Nat} {before after : Node} {q : Requirement}
    (hab : m.tree.Adjacent a b) (ha : m.tree.node? a = some before)
    (hb : m.tree.node? b = some after)
    (hl : m.tokens.lastIn before.span (fun _ => true) = some l)
    (hf : m.tokens.firstIn after.span = some f) (hj : p.judge m (a, b) = .ok (q, k))
    (hq : q.isSatisfiedBy 0 = false) :
    (m.rebase fixes).isLeadingSemicolon
        (before.rebase (m.rebase fixes).text.toList (accepted m.text.toList fixes)) l =
      m.isLeadingSemicolon before l := by
  ext j
  rw [SourceModel.isLeadingSemicolon_eq_some_iff, SourceModel.isLeadingSemicolon_eq_some_iff]
  exact ⟨hpass.guards_of_rebase hm hab hc ha hb hl hf hj hq, hpass.guards_rebase hm hab ha hl⟩

omit hlab hc hnever in
theorem count_rebase {a b l f : Nat} {before after : Node}
    (ha : m.tree.node? a = some before) (hb : m.tree.node? b = some after)
    (hl : m.tokens.lastIn before.span (fun _ => true) = some l)
    (hf : m.tokens.firstIn after.span = some f) :
    Linebreaks.count (m.rebase fixes) a b = .ok (Linebreaks.betweenTokens (m.rebase fixes).tokens
      (((m.rebase fixes).isLeadingSemicolon
        (before.rebase (m.rebase fixes).text.toList (accepted m.text.toList fixes)) l).getD l)
      f) :=
  Linebreaks.count_eq (SourceModel.lastToken_rebase (hpass.spares hm) hm.placed ha hl)
    (SourceModel.firstToken_rebase (hpass.spares hm) hm.placed hb hf)

theorem exists_count_rebase {a b k : Nat} {q : Requirement} (hab : m.tree.Adjacent a b)
    (hj : p.judge m (a, b) = .ok (q, k)) :
    ∃ k', Linebreaks.count (m.rebase fixes) a b = .ok k' ∧ q.isSatisfiedBy k' = true := by
  obtain ⟨before, after, l, f, ha, hb, -, -, -, hl, hf, -⟩ := hm.ends hab
  refine ⟨_, count_rebase hm hpass ha hb hl hf, ?_⟩
  cases hq : q.isSatisfiedBy 0 with
  | true =>
      -- Only a free layout asks for nothing.
      have hne := ne_never_of_judge hm hlab hnever hab hj
      cases q with
      | any => rfl
      | never => exact absurd rfl hne
      | always => cases hq
      | blankLine => cases hq
  | false =>
      rw [isLeadingSemicolon_rebase hm hc hpass hab ha hb hl hf hj hq]
      exact isSatisfiedBy_rebase hm hlab hc hpass hnever hab (SourceModel.lastToken_eq ha hl)
        (SourceModel.firstToken_eq hb hf) hj

theorem exists_judge_rebase
    (hlines : ∀ r ∈ p.rules, .multilineBlockLike ∉ r.previous.types ∧
      .multilineBlockLike ∉ r.next.types) {a b : Nat} (hab : m.tree.Adjacent a b) :
    ∃ q k, p.judge (m.rebase fixes) (a, b) = .ok (q, k) ∧ q.isSatisfiedBy k = true := by
  obtain ⟨⟨q, k⟩, hj⟩ := exists_verdict hm hlab p hab
  obtain ⟨k', hcount, hs⟩ := exists_count_rebase hm hlab hc hpass hnever hab hj
  refine ⟨q, k', ?_, hs⟩
  unfold judge
  rw [SourceModel.Coherent.resolve_rebase (hpass.spares hm) hm hlab hlines hab,
    (judge_eq_ok hj).1, hcount]
  rfl

end second

/-- **One pass is enough.**  In a model of a text, take all fixes of a check against a policy that
only asks for line breaks, and tells no statements apart by the lines they span.  A check of the
model of the repaired text has nothing to report. -/
theorem check_rebase (hm : m.Coherent NodeKind.isListItem) (hlab : m.LabelsHold)
    (hc : m.CommentsBetween) (hnever : ∀ r ∈ p.rules, r.requirement ≠ .never)
    (hlines : ∀ r ∈ p.rules, .multilineBlockLike ∉ r.previous.types ∧
      .multilineBlockLike ∉ r.next.types) :
    ∃ reports, p.check m = .ok reports ∧
      p.check (m.rebase (reports.filterMap Report.fix)) = .ok [] := by
  obtain ⟨reports, hreports, hpass⟩ := exists_pass hm hlab hnever
  refine ⟨reports, hreports, check_eq_nil hm.grown.linked.rebase fun a b hab => ?_⟩
  exact exists_judge_rebase hm hlab hc hpass hnever hlines
    ((SyntaxTree.adjacent_rebase a b).1 hab)

/-- A clause that hands its semicolon over to the next line, and ends where its own statement does:
two pairs ask for a break behind `b`. -/
def sharedEnd : SourceModel :=
  .ofOffsets "switch(a)\x7bcase 1:b\n;case 2:c\x7d"
    [⟨.keyword, 0, 6, none⟩, ⟨.punctuator, 6, 7, none⟩, ⟨.identifier, 7, 8, none⟩,
      ⟨.punctuator, 8, 9, none⟩, ⟨.punctuator, 9, 10, none⟩, ⟨.keyword, 10, 14, none⟩,
      ⟨.numeric, 15, 16, none⟩, ⟨.punctuator, 16, 17, none⟩, ⟨.identifier, 17, 18, none⟩,
      ⟨.punctuator, 19, 20, none⟩, ⟨.keyword, 20, 24, none⟩, ⟨.numeric, 25, 26, none⟩,
      ⟨.punctuator, 26, 27, none⟩, ⟨.identifier, 27, 28, none⟩,
      ⟨.punctuator, 28, 29, some .switch⟩]
    [⟨0, .statement .switch, 0, 29⟩, ⟨1, .switchCase, 10, 20⟩,
      ⟨2, .statement (.expression false), 17, 18⟩, ⟨2, .statement .empty, 19, 20⟩,
      ⟨1, .switchCase, 20, 28⟩, ⟨5, .statement (.expression false), 27, 28⟩] (by decide)

/-- A policy that asks for blank lines everywhere. -/
def blankEverywhere : Policy := ⟨[⟨.blankLine, .single .any, .single .any⟩]⟩

/-- The fixes of both pairs are at the same place, and together they satisfy both. -/
theorem check_rebase_sharedEnd :
    sharedEnd.Coherent NodeKind.isListItem ∧ sharedEnd.LabelsHold ∧ sharedEnd.CommentsBetween ∧
    blankEverywhere.check sharedEnd = .ok [⟨3, 4, .blankLine, some (.insertion 18 "\n")⟩,
      ⟨2, 5, .blankLine, some (.insertion 18 "\n")⟩] ∧
    blankEverywhere.check (sharedEnd.rebase [.insertion 18 "\n", .insertion 18 "\n"]) = .ok [] := by
  have hpairs : sharedEnd.tree.pairs = [(3, 4), (2, 5)] := by decide +kernel
  have hm : sharedEnd.Coherent NodeKind.isListItem :=
    ⟨SourceModel.grown_ofOffsets _, by decide +kernel, by decide +kernel, by decide +kernel⟩
  have hlab : sharedEnd.LabelsHold := by decide +kernel
  have hc : sharedEnd.CommentsBetween := by
    rw [SourceModel.commentsBetween_iff hm.grown, hpairs]
    decide +kernel
  have hfirst : blankEverywhere.check sharedEnd =
      .ok [⟨3, 4, .blankLine, some (.insertion 18 "\n")⟩,
        ⟨2, 5, .blankLine, some (.insertion 18 "\n")⟩] := by cbv
  obtain ⟨reports, hreports, hagain⟩ := check_rebase (p := blankEverywhere) hm hlab hc
    (by simp [blankEverywhere]) (by simp [blankEverywhere, TypeSpec.types])
  cases hfirst.symm.trans hreports
  exact ⟨hm, hlab, hc, hfirst, hagain⟩

end Policy

end Interline
