import Mathlib
import Interline.Proofs.Conflicts
import Interline.Proofs.ManyPasses

/-! # A second check

The fixes of a check are applied in one pass, and no fix is thought over in view of the others.  A
second check can therefore have fixes to propose again.  `Policy.check_twice` says for which pairs.

Let the accepted fixes spare the tokens (`Policy.SparingPass`).  Between the last token of a
statement and its neighbour they touch nothing but the place right behind that token
(`SparingPass.start_eq_of_gap`).  So if the pair still has its requirement, and the statement is
still read as ending with that token, then

* a requirement for line breaks is met (`SparingPass.met_of_kept`);
* line breaks that are forbidden and could be taken out are gone, unless another fix was accepted
  at the same place (`SparingPass.leavesOutJoin_of_kept`).

A statement is read differently only if a fix was accepted next to the semicolon that it ends with
(`SparingPass.touchesSemicolon_of_lastToken_ne`). -/

namespace Interline

open Replacement

/-! ### Joins in an edited text -/

theorem TokenStore.between_rebase {s : TokenStore} {text : List Char} {taken : List Replacement}
    (i j : Nat) (c : Bool) :
    (s.rebase text taken).between i j c = (s.between i j c).map (Token.rebase text taken) := by
  have e : (s.rebase text taken).toList = s.toList.map (Token.rebase text taken) := rfl
  unfold between
  rw [e, ← List.map_take, ← List.map_drop, List.filter_map]
  rfl

namespace Repair

variable {m : SourceModel} {fixes : List Replacement}

theorem endsExplicitly_rebase (a : Nat) (t : Token) (text : List Char)
    (taken : List Replacement) :
    endsExplicitly (m.rebase fixes) a (t.rebase text taken) = endsExplicitly m a t := by
  have hsemi : (t.rebase text taken).isSemicolon = t.isSemicolon := rfl
  have hbody : (t.rebase text taken).endsBody = t.endsBody := rfl
  unfold endsExplicitly
  rw [hsemi, hbody, SourceModel.unwrapLabels_rebase]
  cases m.unwrapLabels a with
  | error e => rfl
  | ok u =>
      simp only [bind, Except.bind]
      unfold SourceModel.node
      rw [SourceModel.node?_rebase]
      cases m.tree.node? u <;> rfl

theorem isSome_join_rebase {a b : Nat} {fix fix' : Option Replacement}
    (hlast : (m.rebase fixes).lastToken a = m.lastToken a)
    (hfirst : (m.rebase fixes).firstToken b = m.firstToken b)
    (h : join m a b = .ok fix) (h' : join (m.rebase fixes) a b = .ok fix') :
    fix'.isSome = fix.isSome := by
  unfold join at h h'
  rw [hlast, hfirst] at h'
  obtain ⟨i, hi, h⟩ := exists_of_bind_eq_ok h
  obtain ⟨f, hf, h⟩ := exists_of_bind_eq_ok h
  rw [hi, hf] at h'
  simp only [bind, Except.bind, SourceModel.token?_rebase] at h'
  have hbetween : (m.rebase fixes).tokens.between i f true = (m.tokens.between i f true).map
      (Token.rebase (m.rebase fixes).text.toList (accepted m.text.toList fixes)) :=
    TokenStore.between_rebase i f true
  have hcomment : ((m.rebase fixes).tokens.between i f true).any Token.isComment =
      (m.tokens.between i f true).any Token.isComment := by
    rw [hbetween, List.any_map]
    rfl
  rw [hcomment] at h'
  cases ht : m.token? i with
  | none =>
      rw [ht] at h h'
      cases h
      cases h'
      rfl
  | some t =>
      cases hu : m.token? f with
      | none =>
          rw [ht, hu] at h h'
          cases h
          cases h'
          rfl
      | some u =>
          rw [ht, hu] at h h'
          simp only [Option.map_some] at h h'
          split at h
          next hno =>
            rw [if_pos hno] at h'
            cases h
            cases h'
            rfl
          next hno =>
            rw [if_neg hno, endsExplicitly_rebase] at h'
            obtain ⟨ends, hends, h⟩ := exists_of_bind_eq_ok h
            rw [hends] at h'
            cases ends <;> cases h <;> cases h' <;> rfl

end Repair

namespace Policy

variable {p : Policy} {m : SourceModel} {reports : List Report} {fixes : List Replacement}

/-- A rule tells statements apart by the lines they span, and one of the pair has come to span
several lines, or has ceased to. -/
def Reclassifies (p : Policy) (m m' : SourceModel) (a b : Nat) : Prop :=
  ∃ r ∈ p.rules,
    (.multilineBlockLike ∈ r.previous.types ∧
      (TypeSpec.single .multilineBlockLike).matches? m' a ≠
        (TypeSpec.single .multilineBlockLike).matches? m a) ∨
    (.multilineBlockLike ∈ r.next.types ∧
      (TypeSpec.single .multilineBlockLike).matches? m' b ≠
        (TypeSpec.single .multilineBlockLike).matches? m b)

/-- A statement ends with a semicolon, and an edit stands behind the token in front of it, or the
statement itself is joined with its neighbour behind it. -/
def TouchesSemicolon (m : SourceModel) (reports : List Report) (taken : List Replacement)
    (a : Nat) : Prop :=
  ∃ n l j s t, m.tree.node? a = some n ∧ m.tokens.lastIn n.span (fun _ => true) = some l ∧
    m.token? l = some s ∧ s.isSemicolon = true ∧ m.tokens.before l false = some j ∧
    m.token? j = some t ∧ n.span.start ≤ t.span.start ∧
    ((∃ r ∈ taken, r.start = t.span.stop) ∨
      ∃ R ∈ reports, R.previous = a ∧ R.requirement = .never ∧
        ∃ r ∈ taken, R.fix = some r ∧ r.start = s.span.stop)

/-- The join of a pair has given way to another edit at its place. -/
def LeavesOutJoin (reports : List Report) (taken : List Replacement) (a : Nat) : Prop :=
  ∃ R ∈ reports, R.previous = a ∧ R.requirement = .never ∧
    ∃ r, R.fix = some r ∧ r ∉ taken ∧ ∃ x ∈ taken, x.start = r.start

/-- The fixes of a check, if those that are accepted reach into no token. -/
structure SparingPass (p : Policy) (m : SourceModel) (reports : List Report)
    (fixes : List Replacement) : Prop where
  checked : p.check m = .ok reports
  fixes_eq : reports.filterMap Report.fix = fixes
  spares : m.tokens.Spares (accepted m.text.toList fixes)

namespace SparingPass

/-! ### What is edited between neighbours -/

section gaps

variable (hm : m.Coherent NodeKind.isListItem) (hc : m.CommentsBetween)
  (hpass : p.SparingPass m reports fixes)
include hm hpass

theorem exists_anchor {r : Replacement} (hr : r ∈ accepted m.text.toList fixes) :
    ∃ R ∈ reports, R.fix = some r ∧ m.tree.Adjacent R.previous R.node ∧
      Repair.propose R.requirement m R.previous R.node = .ok (some r) ∧
      ∃ j t, m.lastToken R.previous = .ok j ∧ m.token? j = some t ∧
        m.tokens.CountsAt false j ∧ r.start = t.span.stop := by
  obtain ⟨R, hR, hfix⟩ := exists_report (hpass.fixes_eq.symm ▸ hr)
  obtain ⟨hcd, hpropose⟩ := propose_of_mem hm hpass.checked hR
  rw [hfix] at hpropose
  obtain ⟨j, t, hj, ht, hstart, -⟩ := fix_cases hpropose
  obtain ⟨_, _, _, f, _, hd, -, -, -, -, hf, -⟩ := hm.ends hcd
  exact ⟨R, hR, hfix, hcd, hpropose, j, t, hj, ht,
    (hm.lastToken_lt hcd hj (SourceModel.firstToken_eq hd hf)).2, hstart⟩

theorem exists_anchor_between {k k' : Nat} {t u : Token} (ht : m.token? k = some t)
    (hu : m.token? k' = some u) {r : Replacement} (hr : r ∈ accepted m.text.toList fixes)
    (hfront : t.span.stop ≤ r.start) (hback : r.start ≤ u.span.start) :
    ∃ R ∈ reports, R.fix = some r ∧ m.tree.Adjacent R.previous R.node ∧
      ∃ j v, m.lastToken R.previous = .ok j ∧ m.token? j = some v ∧ m.tokens.CountsAt false j ∧
        r.start = v.span.stop ∧ k ≤ j ∧ j < k' := by
  have hs := hm.placed.separate
  obtain ⟨R, hR, hfix, hcd, -, j, v, hj, hv, hcode, hstart⟩ := hpass.exists_anchor hm hr
  refine ⟨R, hR, hfix, hcd, j, v, hj, hv, hcode, hstart, ?_, ?_⟩
  · by_contra hlt
    have := hs.stop_lt (Nat.lt_of_not_le hlt) hv ht
    omega
  · have := hs.width hu
    exact hs.lt_of_stop_lt hv hu (by omega)

include hc

theorem start_eq_of_gap {a b i f k k' : Nat} {t u : Token} (hab : m.tree.Adjacent a b)
    (hi : m.lastToken a = .ok i) (hf : m.firstToken b = .ok f) (hik : i ≤ k) (hkf : k' ≤ f)
    (ht : m.token? k = some t) (hu : m.token? k' = some u) {r : Replacement}
    (hr : r ∈ accepted m.text.toList fixes) (hfront : t.span.stop ≤ r.start)
    (hback : r.start ≤ u.span.start) : k = i ∧ r.start = t.span.stop := by
  obtain ⟨R, -, -, hcd, j, v, hj, hv, -, hstart, hkj, hjk⟩ :=
    hpass.exists_anchor_between hm ht hu hr hfront hback
  have hji : j ≤ i := by
    by_contra hij
    have := hm.le_of_lt_lastToken hc hab hcd hi hf hj (Nat.lt_of_not_le hij)
    omega
  obtain rfl : k = j := by omega
  rw [ht] at hv
  cases hv
  exact ⟨by omega, hstart⟩

end gaps

/-! ### Counts of neighbours -/

section counts

variable (hm : m.Coherent NodeKind.isListItem) (hc : m.CommentsBetween)
  (hpass : p.SparingPass m reports fixes) {a b i f : Nat} {t u : Token}
  (hab : m.tree.Adjacent a b) (hi : m.lastToken a = .ok i) (hf : m.firstToken b = .ok f)
  (ht : m.token? i = some t) (hu : m.token? f = some u)
include hm hc hpass hab hi hf ht

theorem exists_lines_of_untouched {k k' : Nat} {v w : Token} (hik : i ≤ k) (hkk : k < k')
    (hkf : k' ≤ f) (hv : m.token? k = some v) (hw : m.token? k' = some w)
    (hnone : k = i → ∀ r ∈ accepted m.text.toList fixes, r.start ≠ t.span.stop) :
    ∃ v' w' d, (m.rebase fixes).token? k = some v' ∧ (m.rebase fixes).token? k' = some w' ∧
      w.span.startPos.line = v.span.stopPos.line + d ∧
      w'.span.startPos.line = v'.span.stopPos.line + d := by
  refine SourceModel.exists_lines_of_none hm.placed hpass.spares hkk hv hw
    fun r hr hfront hback => ?_
  obtain ⟨rfl, hstart⟩ := hpass.start_eq_of_gap hm hc hab hi hf hik hkf hv hw hr hfront hback
  rw [ht] at hv
  cases hv
  exact hnone rfl r hr hstart

theorem leavesLine_iff_of_untouched (hu : m.token? f = some u) {k : Nat} (hik : i ≤ k)
    (hkf : k < f)
    (hnone : k = i → ∀ r ∈ accepted m.text.toList fixes, r.start ≠ t.span.stop) :
    (m.rebase fixes).tokens.LeavesLine k ↔ m.tokens.LeavesLine k := by
  have hsize := TokenStore.get?_lt hu
  obtain ⟨v, hv⟩ := TokenStore.get?_isSome (s := m.tokens) (i := k) (by omega)
  obtain ⟨w, hw⟩ := TokenStore.get?_isSome (s := m.tokens) (i := k + 1) (by omega)
  obtain ⟨v', w', d, hv', hw', hline, hline'⟩ := hpass.exists_lines_of_untouched hm hc hab hi hf ht
    hik (Nat.lt_succ_self k) hkf hv hw hnone
  rw [TokenStore.leavesLine_iff hv' hw', TokenStore.leavesLine_iff hv hw]
  omega

include hu

theorem betweenTokens_of_none
    (hnone : ∀ r ∈ accepted m.text.toList fixes, r.start ≠ t.span.stop) :
    Linebreaks.betweenTokens (m.rebase fixes).tokens i f =
      Linebreaks.betweenTokens m.tokens i f := by
  obtain ⟨hif, -⟩ := hm.lastToken_lt hab hi hf
  have hplaced := SourceModel.Placed.rebase hm.placed hpass.spares
  obtain ⟨t', u', d, ht', hu', hline, hline'⟩ := hpass.exists_lines_of_untouched hm hc hab hi hf ht
    (Nat.le_refl i) hif (Nat.le_refl f) ht hu fun _ => hnone
  have hone := Linebreaks.one_le_betweenTokens_iff ht hu
  have hone' := Linebreaks.one_le_betweenTokens_iff ht' hu'
  have htwo : 2 ≤ Linebreaks.betweenTokens (m.rebase fixes).tokens i f ↔
      2 ≤ Linebreaks.betweenTokens m.tokens i f := by
    rw [Linebreaks.two_le_betweenTokens_iff hplaced.ascending hplaced.lined ht' hu' hif,
      Linebreaks.two_le_betweenTokens_iff hm.placed.ascending hm.placed.lined ht hu hif]
    refine exists_congr fun k => and_congr_right fun hik => and_congr_right fun hkf => ?_
    exact hpass.leavesLine_iff_of_untouched hm hc hab hi hf ht hu hik hkf fun _ => hnone
  have := Linebreaks.betweenTokens_le_two m.tokens i f
  have := Linebreaks.betweenTokens_le_two (m.rebase fixes).tokens i f
  omega

variable {r : Replacement} (hr : r ∈ accepted m.text.toList fixes) (hstart : r.start = t.span.stop)
include hr hstart

omit hu in
theorem exists_lines_of_insertion (hins : r.stop = r.start) {k : Nat} {w : Token} (hik : i < k)
    (hkf : k ≤ f) (hw : m.token? k = some w) :
    ∃ t' w' d, (m.rebase fixes).token? i = some t' ∧ (m.rebase fixes).token? k = some w' ∧
      w.span.startPos.line = t.span.stopPos.line + d ∧
      w'.span.startPos.line = t'.span.stopPos.line + (d + r.newText.toList.count '\n') := by
  have hle := hm.placed.separate.apart hik ht hw
  refine SourceModel.exists_lines_of_insertion hm.placed hpass.spares hik ht hw hr (by omega)
    (by omega) (fun x hx hfront hback => ?_) hins
  obtain ⟨-, hx⟩ :=
    hpass.start_eq_of_gap hm hc hab hi hf (Nat.le_refl i) hkf ht hw hx hfront hback
  omega

theorem betweenTokens_of_insertion (hins : r.stop = r.start)
    (hcount : 1 ≤ r.newText.toList.count '\n') :
    1 ≤ Linebreaks.betweenTokens (m.rebase fixes).tokens i f ∧
      (2 ≤ Linebreaks.betweenTokens m.tokens i f →
        2 ≤ Linebreaks.betweenTokens (m.rebase fixes).tokens i f) ∧
      ∀ v, m.token? (i + 1) = some v →
        t.span.stopPos.line + 2 ≤ v.span.startPos.line + r.newText.toList.count '\n' →
        2 ≤ Linebreaks.betweenTokens (m.rebase fixes).tokens i f := by
  obtain ⟨hif, -⟩ := hm.lastToken_lt hab hi hf
  have hplaced := SourceModel.Placed.rebase hm.placed hpass.spares
  have hsize := TokenStore.get?_lt hu
  obtain ⟨v, hv⟩ := TokenStore.get?_isSome (s := m.tokens) (i := i + 1) (by omega)
  obtain ⟨t', u', d, ht', hu', hline, hline'⟩ :=
    hpass.exists_lines_of_insertion hm hc hab hi hf ht hr hstart hins hif (Nat.le_refl f) hu
  obtain ⟨t'', v', e, ht'', hv', hnext, hnext'⟩ :=
    hpass.exists_lines_of_insertion hm hc hab hi hf ht hr hstart hins (Nat.lt_succ_self i) hif hv
  rw [ht'] at ht''
  cases ht''
  have htwo := Linebreaks.two_le_betweenTokens_iff hplaced.ascending hplaced.lined ht' hu' hif
  refine ⟨?_, fun h => ?_, fun w hw hwide => ?_⟩
  · rw [Linebreaks.one_le_betweenTokens_iff ht' hu']
    omega
  · obtain ⟨k, hik, hkf, hleaves⟩ := (Linebreaks.two_le_betweenTokens_iff hm.placed.ascending
      hm.placed.lined ht hu hif).1 h
    refine htwo.2 ⟨k, hik, hkf, ?_⟩
    by_cases hk : k = i
    · subst hk
      rw [TokenStore.leavesLine_iff ht hv] at hleaves
      rw [TokenStore.leavesLine_iff ht' hv']
      omega
    · exact (hpass.leavesLine_iff_of_untouched hm hc hab hi hf ht hu hik hkf
        fun h => absurd h hk).2 hleaves
  · cases hv.symm.trans hw
    refine htwo.2 ⟨i, Nat.le_refl i, hif, (TokenStore.leavesLine_iff ht' hv').2 ?_⟩
    omega

theorem betweenTokens_of_removal (hstop : r.stop = u.span.start) (hempty : r.newText.toList = []) :
    Linebreaks.betweenTokens (m.rebase fixes).tokens i f = 0 := by
  obtain ⟨hif, -⟩ := hm.lastToken_lt hab hi hf
  have hle := hm.placed.separate.apart hif ht hu
  obtain ⟨t', u', ht', hu', hline⟩ := SourceModel.exists_lines_of_removal hm.placed hpass.spares
    hif ht hu hr (by omega) (by omega) (fun x hx hfront hback => by
      have := (hpass.start_eq_of_gap hm hc hab hi hf (Nat.le_refl i) (Nat.le_refl f) ht hu hx
        hfront hback).2
      omega) hstart hstop hempty
  have := Linebreaks.one_le_betweenTokens_iff ht' hu'
  omega

end counts

/-! ### Fixes of other pairs -/

section others

variable (hm : m.Coherent NodeKind.isListItem) (hlab : m.LabelsHold) (hc : m.CommentsBetween)
  (hpass : p.SparingPass m reports fixes)
include hm hlab hpass

theorem exists_asks {R : Report} {r : Replacement} (hR : R ∈ reports) (hfix : R.fix = some r)
    (hq : R.requirement ≠ .never) : ∃ i, p.Asks m R.previous R.node i r := by
  obtain ⟨hab, ⟨k, hj, hs⟩, hpropose⟩ := violation_of_mem hm hlab hpass.checked hR
  obtain ⟨i, -, hi, -⟩ := Linebreaks.count_eq_ok (judge_eq_ok hj).2
  rw [propose_eq hq hs hi, hfix] at hpropose
  exact ⟨i, hab, hi, _, k, hj, hs, Except.ok.inj hpropose⟩

omit hlab hpass in
theorem not_passesOver_of_spares (hc : m.CommentsBetween)
    (hs : m.tokens.Spares (accepted m.text.toList fixes)) {c d : Nat} {r : Replacement}
    (hcd : m.tree.Adjacent c d)
    (hpropose : Repair.propose .never m c d = .ok (some r))
    (hr : r ∈ accepted m.text.toList fixes) : ¬m.PassesOver c := by
  intro hover
  obtain ⟨l, s, hsl, hfront, hback⟩ := exists_token_of_cut hm hc hcd rfl hover hpropose
  have hw := hm.placed.separate.width hsl
  have := hs r hr hsl
  omega

include hc

theorem one_le_of_accepted {a b l f : Nat} {s u : Token} (hab : m.tree.Adjacent a b)
    (hl : m.lastToken a = .ok l) (hf : m.firstToken b = .ok f) (hs : m.token? l = some s)
    (hu : m.token? f = some u) {R : Report} {r : Replacement} (hR : R ∈ reports)
    (hfix : R.fix = some r) (hr : r ∈ accepted m.text.toList fixes) (hq : R.requirement ≠ .never)
    (hstart : r.start = s.span.stop) :
    1 ≤ Linebreaks.betweenTokens (m.rebase fixes).tokens l f := by
  obtain ⟨i, hasks⟩ := hpass.exists_asks hm hlab hR hfix hq
  obtain ⟨-, -, -, -, -, -, hstop, -⟩ := hasks.exists_token hm
  exact (hpass.betweenTokens_of_insertion hm hc hab hl hf hs hu hr hstart hstop
    (hasks.count_pos hm)).1

/-- A join of another pair at the end of a statement makes its semicolon part of the line. -/
theorem lastToken_ne_of_foreign_join {a b i : Nat} {R : Report} {r : Replacement}
    (hab : m.tree.Adjacent a b) (hi : m.lastToken a = .ok i) (hR : R ∈ reports)
    (hfix : R.fix = some r) (hr : r ∈ accepted m.text.toList fixes) (hq : R.requirement = .never)
    (hne : a ≠ R.previous) (hi' : m.lastToken R.previous = .ok i) :
    (m.rebase fixes).lastToken a ≠ .ok i := by
  obtain ⟨hcd, -, hpropose⟩ := violation_of_mem hm hlab hpass.checked hR
  rw [hfix, hq] at hpropose
  rcases hm.handsOver_of_common_end hc hab hcd hne hi hi' with
    ⟨⟨n, l, j, hn, hl, hg, hfirst⟩, -⟩ | ⟨⟨n, l, j, hn, hl, hg, -⟩, -⟩
  · rw [SourceModel.lastToken_of_guards hn hl hg] at hi
    cases hi
    obtain ⟨i', f, t, u, hi'', hf, ht, hu, -, -, rfl⟩ := Repair.join_eq_some hpropose
    cases hi'.symm.trans hi''
    cases hfirst.symm.trans hf
    obtain ⟨hil, -⟩ := hm.lastToken_lt hcd hi' hfirst
    have hle := hm.placed.separate.apart hil ht hu
    obtain ⟨t', u', ht', hu', hline⟩ := SourceModel.exists_lines_of_removal hm.placed
      hpass.spares hil ht hu hr (Nat.le_refl _) hle (fun x hx hfront hback =>
        (hpass.start_eq_of_gap hm hc hcd hi' hfirst (Nat.le_refl i) (Nat.le_refl l) ht hu hx hfront
          hback).2) rfl rfl rfl
    -- Read as a guard, the semicolon would have to start a line.
    intro hlast
    have hl' := (SourceModel.lastIn_rebase hm.placed hpass.spares fun _ _ _ => rfl).trans hl
    rcases SourceModel.lastToken_cases (SourceModel.node?_rebase_of_eq hn) hl' hlast with
      ⟨rfl, -⟩ | ⟨s', t'', -, -, hs', -, -, ht'', -, -, -, hne', -⟩
    · exact Nat.lt_irrefl i hil
    · cases hu'.symm.trans hs'
      cases ht'.symm.trans ht''
      exact hne' hline
  · exact absurd ⟨n, l, j, hn, hl, hg⟩
      (not_passesOver_of_spares hm hc hpass.spares hcd hpropose hr)

end others

/-! ### Pairs that are judged as before -/

section kept

variable (hm : m.Coherent NodeKind.isListItem) (hlab : m.LabelsHold) (hc : m.CommentsBetween)
  (hpass : p.SparingPass m reports fixes) {a b i f k : Nat} {q : Requirement}
  (hab : m.tree.Adjacent a b) (hi : m.lastToken a = .ok i) (hf : m.firstToken b = .ok f)
  (hj : p.judge m (a, b) = .ok (q, k))
include hm hc hpass

theorem exists_accepted {R : Report} {r : Replacement} (hR : R ∈ reports)
    (hfix : R.fix = some r) : ∃ x ∈ accepted m.text.toList fixes, x.start = r.start := by
  have hmem : r ∈ reports.filterMap Report.fix := List.mem_filterMap.2 ⟨R, hR, hfix⟩
  rw [← hpass.fixes_eq]
  exact Replacement.exists_accepted (compatible_fixes hm hc hpass.checked) hmem
    (fits_of_mem hm hpass.checked r hmem)

include hlab hi hab hj

/-- What is accepted right behind a statement that is still read as ending there: the fix of its own
pair, or the insertion of a pair that asks for a blank line. -/
theorem own_or_blankLine (hi' : (m.rebase fixes).lastToken a = .ok i) {r : Replacement}
    {R : Report} (hr : r ∈ accepted m.text.toList fixes) (hR : R ∈ reports) (hfix : R.fix = some r)
    (hlast : m.lastToken R.previous = .ok i) :
    (R.previous = a ∧ R.requirement = q ∧ q.isSatisfiedBy k = false) ∨
      (R.requirement = .blankLine ∧ 1 ≤ k) := by
  obtain ⟨hcd, ⟨k', hj', hs⟩, -⟩ := violation_of_mem hm hlab hpass.checked hR
  by_cases hne : a = R.previous
  · subst hne
    rw [← hab.unique hm.grown.linked hcd, hj] at hj'
    cases hj'
    exact .inl ⟨rfl, rfl, hs⟩
  · have hone := one_le_of_common_end hm hc hab hcd hne hi hlast hj'
    refine .inr ⟨?_, one_le_of_common_end hm hc hcd hab (fun e => hne e.symm) hlast hi hj⟩
    cases hq : R.requirement with
    | any =>
        rw [hq] at hs
        cases hs
    | never =>
        exact absurd hi' (hpass.lastToken_ne_of_foreign_join hm hlab hc hab hi hR hfix hr hq hne
          hlast)
    | always =>
        rw [hq] at hs
        simp only [Requirement.isSatisfiedBy, decide_eq_false_iff_not] at hs
        exact absurd hone hs
    | blankLine => rfl

include hf

theorem met_of_accepted (hi' : (m.rebase fixes).lastToken a = .ok i) (hq : q ≠ .never) {t : Token}
    (ht : m.token? i = some t) {r : Replacement} (hr : r ∈ accepted m.text.toList fixes)
    (hstart : r.start = t.span.stop) :
    q.isSatisfiedBy (Linebreaks.betweenTokens (m.rebase fixes).tokens i f) = true := by
  obtain ⟨u, hu⟩ := SourceModel.exists_token_of_firstToken hm.placed.separate hf
  obtain ⟨R, hR, hfix, -, -, j, v, hlast, hv, -, hstart'⟩ := hpass.exists_anchor hm hr
  obtain rfl := hm.placed.separate.eq_of_stop_eq hv ht (by omega)
  have hreq := hpass.own_or_blankLine hm hlab hc hab hi hj hi' hr hR hfix hlast
  have hne : R.requirement ≠ .never := by
    rcases hreq with ⟨-, hreq, -⟩ | ⟨hreq, -⟩
    · rwa [hreq]
    · rw [hreq]
      exact Requirement.noConfusion
  obtain ⟨j', hasks⟩ := hpass.exists_asks hm hlab hR hfix hne
  have hpos := hasks.count_pos hm
  obtain ⟨t', w, ht', hw, -, -, hstop, q', k', hj', -, hcount⟩ := hasks.exists_token hm
  cases hlast.symm.trans hasks.last
  cases ht.symm.trans ht'
  obtain ⟨-, ⟨k'', hj'', -⟩, -⟩ := violation_of_mem hm hlab hpass.checked hR
  cases hj''.symm.trans hj'
  obtain ⟨hone, htwo, hwide⟩ := hpass.betweenTokens_of_insertion hm hc hab hi hf ht hu hr hstart
    hstop hpos
  cases q with
  | any => rfl
  | never => exact absurd rfl hq
  | always => simpa [Requirement.isSatisfiedBy] using hone
  | blankLine =>
      have hblank : R.requirement = .blankLine := by
        rcases hreq with ⟨-, hreq, -⟩ | ⟨hreq, -⟩ <;> exact hreq
      rw [hblank] at hcount
      have := hm.placed.lined.across (Nat.lt_succ_self _) ht hw
      have htwo' := hwide w hw (by
        rw [hcount]
        by_cases hsame : w.span.startPos.line = t.span.stopPos.line
        · simp [hsame]
        · simp [hsame]
          omega)
      simpa [Requirement.isSatisfiedBy] using htwo'

theorem met_of_none (hq : q ≠ .never) {t : Token} (ht : m.token? i = some t)
    (hnone : ∀ r ∈ accepted m.text.toList fixes, r.start ≠ t.span.stop) :
    q.isSatisfiedBy (Linebreaks.betweenTokens (m.rebase fixes).tokens i f) = true := by
  obtain ⟨u, hu⟩ := SourceModel.exists_token_of_firstToken hm.placed.separate hf
  rw [hpass.betweenTokens_of_none hm hc hab hi hf ht hu hnone, ← linebreaks_of_judge hj hi hf]
  by_contra hs
  have hs : q.isSatisfiedBy k = false := by simpa using hs
  obtain ⟨r, hasks⟩ := exists_asks_of_unmet hm hab hi hj hs
  obtain ⟨fix, hR, hpropose⟩ := exists_mem_of_violation hm hlab hpass.checked hab hj hs
  obtain ⟨-, -, q', k', hj', -, hbreak⟩ := hasks
  cases hj.symm.trans hj'
  have hfix := hpropose
  rw [propose_eq hq hs hi, hbreak] at hfix
  cases Except.ok.inj hfix
  obtain ⟨x, hx, hplace⟩ := hpass.exists_accepted hm hc hR rfl
  exact hnone x hx (hplace.trans (start_of_propose hpropose hi ht))

/-- **A requirement for line breaks is met**, if the statement is still read as ending where it has
ended. -/
theorem met_of_kept (hi' : (m.rebase fixes).lastToken a = .ok i) (hq : q ≠ .never) :
    q.isSatisfiedBy (Linebreaks.betweenTokens (m.rebase fixes).tokens i f) = true := by
  obtain ⟨-, t, ht, -⟩ := hm.lastToken_lt hab hi hf
  by_cases hr : ∃ r ∈ accepted m.text.toList fixes, r.start = t.span.stop
  · obtain ⟨r, hr, hstart⟩ := hr
    exact hpass.met_of_accepted hm hlab hc hab hi hf hj hi' hq ht hr hstart
  · exact hpass.met_of_none hm hlab hc hab hi hf hj hq ht fun r hmem hstart =>
      hr ⟨r, hmem, hstart⟩

theorem zero_of_kept (hi' : (m.rebase fixes).lastToken a = .ok i) (hk : k = 0)
    (hs : q.isSatisfiedBy k = true) :
    Linebreaks.betweenTokens (m.rebase fixes).tokens i f = 0 := by
  obtain ⟨-, t, ht, -⟩ := hm.lastToken_lt hab hi hf
  obtain ⟨u, hu⟩ := SourceModel.exists_token_of_firstToken hm.placed.separate hf
  rw [hpass.betweenTokens_of_none hm hc hab hi hf ht hu, ← linebreaks_of_judge hj hi hf, hk]
  intro r hr hstart
  obtain ⟨R, hR, hfix, -, -, j, v, hlast, hv, -, hstart'⟩ := hpass.exists_anchor hm hr
  obtain rfl := hm.placed.separate.eq_of_stop_eq hv ht (by omega)
  rcases hpass.own_or_blankLine hm hlab hc hab hi hj hi' hr hR hfix hlast with ⟨-, -, hno⟩ | ⟨-, h⟩
  · rw [hs] at hno
    cases hno
  · omega

omit hlab hj in
theorem zero_of_joined {r : Replacement} (hr : r ∈ accepted m.text.toList fixes)
    (hpropose : Repair.propose .never m a b = .ok (some r)) :
    Linebreaks.betweenTokens (m.rebase fixes).tokens i f = 0 := by
  obtain ⟨i', f', t, u, hi', hf', ht, hu, -, -, rfl⟩ := Repair.join_eq_some hpropose
  cases hi.symm.trans hi'
  cases hf.symm.trans hf'
  exact hpass.betweenTokens_of_removal hm hc hab hi hf ht hu hr rfl rfl rfl

end kept

section again

variable (hm : m.Coherent NodeKind.isListItem) (hlab : m.LabelsHold) (hc : m.CommentsBetween)
  (hpass : p.SparingPass m reports fixes)
include hm hlab hc hpass

/-- **What is proposed again.**  If the second check has a fix for a pair with its old requirement,
on a statement that is still read as ending where it has ended, then the first check has had a join
for it that was not accepted. -/
theorem leavesOutJoin_of_kept {again : List Report} (h : p.check (m.rebase fixes) = .ok again)
    {R : Report} (hR : R ∈ again) (hfix : R.fix.isSome = true)
    (hresolve : p.resolve (m.rebase fixes) R.previous R.node = p.resolve m R.previous R.node)
    (hlast : (m.rebase fixes).lastToken R.previous = m.lastToken R.previous) :
    LeavesOutJoin reports (accepted m.text.toList fixes) R.previous := by
  have hm' := SourceModel.Coherent.rebase hpass.spares hm
  have hlab' : (m.rebase fixes).LabelsHold := SourceModel.LabelsHold.rebase hlab
  obtain ⟨hab', ⟨k', hj', hs'⟩, hpropose'⟩ := violation_of_mem hm' hlab' h hR
  obtain ⟨a, b, q, fix'⟩ := R
  simp only at hfix hresolve hlast hab' hj' hs' hpropose' ⊢
  have hab := (SyntaxTree.adjacent_rebase a b).1 hab'
  obtain ⟨before, after, l, f, ha, hb, -, -, -, hl, hfirst, -⟩ := hm.ends hab
  have hf := SourceModel.firstToken_eq hb hfirst
  have hf' := SourceModel.firstToken_rebase hpass.spares hm.placed hb hfirst
  obtain ⟨⟨q₀, k⟩, hj⟩ := exists_verdict hm hlab p hab
  obtain ⟨i, -, hi, -⟩ := Linebreaks.count_eq_ok (judge_eq_ok hj).2
  have hi' := hlast.trans hi
  have hq := (judge_eq_ok hj').1
  rw [hresolve, (judge_eq_ok hj).1] at hq
  cases hq
  have hk' := linebreaks_of_judge hj' hi' hf'
  -- Only forbidden line breaks are left.
  have hnever : q = .never := by
    by_contra hq
    have := hpass.met_of_kept hm hlab hc hab hi hf hj hi' hq
    rw [← hk', hs'] at this
    cases this
  subst hnever
  have hs : Requirement.never.isSatisfiedBy k = false := by
    cases hs : Requirement.never.isSatisfiedBy k with
    | false => rfl
    | true =>
        have hk : k = 0 := by simpa [Requirement.isSatisfiedBy] using hs
        rw [hk', hpass.zero_of_kept hm hlab hc hab hi hf hj hi' hk hs] at hs'
        cases hs'
  obtain ⟨fix, hR₀, hpropose⟩ := exists_mem_of_violation hm hlab hpass.checked hab hj hs
  have hsome : fix'.isSome = fix.isSome :=
    Repair.isSome_join_rebase hlast (hf'.trans hf.symm) hpropose hpropose'
  obtain ⟨r, rfl⟩ := Option.isSome_iff_exists.1 (hsome.symm.trans hfix)
  refine ⟨_, hR₀, rfl, rfl, r, rfl, fun hr => ?_, hpass.exists_accepted hm hc hR₀ rfl⟩
  rw [hk', hpass.zero_of_joined hm hc hab hi hf hr hpropose] at hs'
  cases hs'

theorem exists_again_of_leavesOutJoin {again : List Report}
    (h : p.check (m.rebase fixes) = .ok again) {a b : Nat} (hab : m.tree.Adjacent a b)
    (hleft : LeavesOutJoin reports (accepted m.text.toList fixes) a)
    (hresolve : p.resolve (m.rebase fixes) a b = p.resolve m a b)
    (hlast : (m.rebase fixes).lastToken a = m.lastToken a) :
    ∃ R ∈ again, R.previous = a ∧ R.node = b ∧ R.fix.isSome = true := by
  obtain ⟨R₀, hR₀, rfl, hnever, r, hfix, hout, x, hx, hplace⟩ := hleft
  obtain ⟨hab₀, ⟨k, hj, hs⟩, hpropose⟩ := violation_of_mem hm hlab hpass.checked hR₀
  rw [← hab.unique hm.grown.linked hab₀, hnever] at hj hpropose
  rw [hfix] at hpropose
  obtain ⟨before, after, l, f, ha, hb, -, -, -, hl, hfirst, -⟩ := hm.ends hab
  have hf := SourceModel.firstToken_eq hb hfirst
  have hf' := SourceModel.firstToken_rebase hpass.spares hm.placed hb hfirst
  obtain ⟨i, t, hi, ht, hstart, -⟩ := fix_cases hpropose
  obtain ⟨u, hu⟩ := SourceModel.exists_token_of_firstToken hm.placed.separate hf
  -- What has been in the way is an insertion, so there are line breaks now.
  have hone : 1 ≤ Linebreaks.betweenTokens (m.rebase fixes).tokens i f := by
    obtain ⟨R, hR, hxfix, -, -, j, v, hxlast, hv, -, hxstart⟩ := hpass.exists_anchor hm hx
    obtain rfl := hm.placed.separate.eq_of_stop_eq hv ht (by omega)
    rcases hpass.own_or_blankLine hm hlab hc hab hi hj (hlast.trans hi) hx hR hxfix hxlast with
      ⟨hown, -, -⟩ | ⟨hblank, -⟩
    · cases eq_of_previous hm hlab hpass.checked hR hR₀ hown
      cases hfix.symm.trans hxfix
      exact absurd hx hout
    · exact hpass.one_le_of_accepted hm hlab hc hab hi hf ht hu hR hxfix hx
        (by rw [hblank]; exact Requirement.noConfusion) (hplace.trans hstart)
  have hm' := SourceModel.Coherent.rebase hpass.spares hm
  have hlab' : (m.rebase fixes).LabelsHold := SourceModel.LabelsHold.rebase hlab
  have hab' : (m.rebase fixes).tree.Adjacent R₀.previous b :=
    (SyntaxTree.adjacent_rebase _ _).2 hab
  obtain ⟨⟨q', k'⟩, hj'⟩ := exists_verdict hm' hlab' p hab'
  have hq := (judge_eq_ok hj').1
  rw [hresolve, (judge_eq_ok hj).1] at hq
  cases hq
  have hk' := linebreaks_of_judge hj' (hlast.trans hi) hf'
  have hs' : Requirement.never.isSatisfiedBy k' = false := by
    simp only [Requirement.isSatisfiedBy, beq_eq_false_iff_ne]
    omega
  obtain ⟨fix', hR', hpropose'⟩ := exists_mem_of_violation hm' hlab' h hab' hj' hs'
  exact ⟨_, hR', rfl, rfl,
    Repair.isSome_join_rebase hlast (hf'.trans hf.symm) hpropose hpropose'⟩

theorem own_join_or_insertion {a b l f : Nat} {n : Node} {s u : Token} (hab : m.tree.Adjacent a b)
    (ha : m.tree.node? a = some n) (hl : m.tokens.lastIn n.span (fun _ => true) = some l)
    (hf : m.firstToken b = .ok f) (hs : m.token? l = some s) (hu : m.token? f = some u)
    {r : Replacement} {R : Report} (hr : r ∈ accepted m.text.toList fixes) (hR : R ∈ reports)
    (hfix : R.fix = some r) (hlast : m.lastToken R.previous = .ok l)
    (hstart : r.start = s.span.stop) :
    (∀ j, ¬m.Guards n l j) ∧ ((R.previous = a ∧ R.requirement = .never) ∨
      1 ≤ Linebreaks.betweenTokens (m.rebase fixes).tokens l f) := by
  obtain ⟨hcd, -, hpropose⟩ := violation_of_mem hm hlab hpass.checked hR
  rw [hfix] at hpropose
  have hplain : ∀ j, ¬m.Guards n l j := fun j hg =>
    hm.lastToken_ne_of_guards hab hcd ha hl hg hlast
  have hlasta := SourceModel.lastToken_of_not_guards ha hl hplain
  refine ⟨hplain, ?_⟩
  by_cases hq : R.requirement = .never
  · by_cases hne : a = R.previous
    · exact .inl ⟨hne.symm, hq⟩
    · rw [hq] at hpropose
      rcases hm.handsOver_of_common_end hc hab hcd hne hlasta hlast with
        ⟨⟨n', l', j, hn, hl', hg, -⟩, -⟩ | ⟨⟨n', l', j, hn, hl', hg, -⟩, -⟩
      · cases ha.symm.trans hn
        cases hl.symm.trans hl'
        exact absurd hg (hplain j)
      · exact absurd ⟨n', l', j, hn, hl', hg⟩
          (not_passesOver_of_spares hm hc hpass.spares hcd hpropose hr)
  · exact .inr (hpass.one_le_of_accepted hm hlab hc hab hlasta hf hs hu hR hfix hr hq hstart)

omit hlab hc in
theorem exists_guards_ne {a l : Nat} {n : Node} (ha : m.tree.node? a = some n)
    (hl : m.tokens.lastIn n.span (fun _ => true) = some l)
    (hne : (m.rebase fixes).lastToken a ≠ m.lastToken a) :
    ∃ j, m.tokens.before l false = some j ∧ ¬((m.rebase fixes).Guards
      (n.rebase (m.rebase fixes).text.toList (accepted m.text.toList fixes)) l j ↔
        m.Guards n l j) := by
  have hdiff : ∃ j, ¬((m.rebase fixes).Guards
      (n.rebase (m.rebase fixes).text.toList (accepted m.text.toList fixes)) l j ↔
        m.Guards n l j) := by
    by_contra hall
    apply hne
    rw [SourceModel.lastToken_rebase hpass.spares hm.placed ha hl,
      SourceModel.lastToken_eq ha hl]
    congr 2
    ext j
    rw [SourceModel.isLeadingSemicolon_eq_some_iff, SourceModel.isLeadingSemicolon_eq_some_iff]
    exact not_not.1 fun h => hall ⟨j, h⟩
  obtain ⟨j, hdiff⟩ := hdiff
  refine ⟨j, ?_, hdiff⟩
  by_cases hg : m.Guards n l j
  · obtain ⟨-, -, -, -, -, -, hbef, -⟩ := hg
    exact hbef
  · have hg' := not_not.1 fun hg' => hdiff (iff_of_false hg' hg)
    obtain ⟨-, -, -, -, -, -, hbef, -⟩ := hg'
    exact (TokenStore.before_rebase l false).symm.trans hbef

omit hlab hc in
theorem start_eq_of_before {j l : Nat} {s t : Token} (hbef : m.tokens.before l false = some j)
    (ht : m.token? j = some t) (hs : m.token? l = some s) {r : Replacement}
    (hr : r ∈ accepted m.text.toList fixes) (hfront : t.span.stop ≤ r.start)
    (hback : r.start ≤ s.span.start) : r.start = t.span.stop := by
  obtain ⟨R, -, -, -, x, v, -, hv, hcode, hplace, hjx, hxl⟩ :=
    hpass.exists_anchor_between hm ht hs hr hfront hback
  have hxj := (TokenStore.before_eq_some_iff.1 hbef).2 x hxl hcode
  obtain rfl : x = j := Nat.le_antisymm hxj hjx
  cases ht.symm.trans hv
  exact hplace

/-- The only edit behind the last token of a node that is not its own join sets the neighbour apart;
the node has not ended with a guard then. -/
theorem not_guards_or_untouched {a b l f : Nat} {n : Node} {s u s' u' : Token}
    (hab : m.tree.Adjacent a b) (ha : m.tree.node? a = some n)
    (hl : m.tokens.lastIn n.span (fun _ => true) = some l) (hf : m.firstToken b = .ok f)
    (haft : m.tokens.after l false = some f) (hlf : l < f) (hs : m.token? l = some s)
    (hu : m.token? f = some u) (hs' : (m.rebase fixes).token? l = some s')
    (hu' : (m.rebase fixes).token? f = some u')
    (hown : ∀ R ∈ reports, R.previous = a → R.requirement = .never →
      ∀ r ∈ accepted m.text.toList fixes, R.fix = some r → r.start ≠ s.span.stop) :
    (s'.span.stopPos.line ≠ u'.span.startPos.line ∧ ∀ j, ¬m.Guards n l j) ∨
      (s'.span.stopPos.line = u'.span.startPos.line ↔
        s.span.stopPos.line = u.span.startPos.line) := by
  by_cases hedit : ∃ r ∈ accepted m.text.toList fixes,
      s.span.stop ≤ r.start ∧ r.start ≤ u.span.start
  · obtain ⟨r, hr, hfront, hback⟩ := hedit
    obtain ⟨R, hR, hfix, -, x, v, hlast, hv, hcode, hplace, hlx, hxf⟩ :=
      hpass.exists_anchor_between hm hs hu hr hfront hback
    obtain rfl : x = l := by
      by_contra hne
      have := (TokenStore.after_eq_some_iff.1 haft).2 x (by omega) hcode
      omega
    cases hs.symm.trans hv
    obtain ⟨hplain, ⟨hprevious, hq⟩ | hone⟩ :=
      hpass.own_join_or_insertion hm hlab hc hab ha hl hf hs hu hr hR hfix hlast hplace
    · exact absurd hplace (hown R hR hprevious hq r hr hfix)
    · rw [Linebreaks.one_le_betweenTokens_iff hs' hu'] at hone
      exact .inl ⟨by omega, hplain⟩
  · obtain ⟨s'', u'', d, hs'', hu'', hnext, hnext'⟩ := SourceModel.exists_lines_of_none hm.placed
      hpass.spares hlf hs hu fun r hr hfront hback => hedit ⟨r, hr, hfront, hback⟩
    cases hs'.symm.trans hs''
    cases hu'.symm.trans hu''
    exact .inr (by omega)

/-- **How a statement comes to be read differently.**  The semicolon that it ends with has been
touched. -/
theorem touchesSemicolon_of_lastToken_ne {a b : Nat} (hab : m.tree.Adjacent a b)
    (hne : (m.rebase fixes).lastToken a ≠ m.lastToken a) :
    TouchesSemicolon m reports (accepted m.text.toList fixes) a := by
  obtain ⟨n, after, l, f, ha, hb, -, -, -, hl, hfirst, hlf⟩ := hm.ends hab
  have hf := SourceModel.firstToken_eq hb hfirst
  have haft := hm.after_lastIn hc hab ha hb hl hfirst
  obtain ⟨s, hs, -⟩ := ((TokenStore.lastIn_eq_some_iff hm.placed.separate).1 hl).1
  obtain ⟨u, hu⟩ := SourceModel.exists_token_of_firstToken hm.placed.separate hf
  obtain ⟨j, hbef, hdiff⟩ := hpass.exists_guards_ne hm ha hl hne
  obtain ⟨⟨hjl, t, ht, -⟩, -⟩ := TokenStore.before_eq_some_iff.1 hbef
  have hs' := SourceModel.token?_rebase_of_eq fixes hs
  have ht' := SourceModel.token?_rebase_of_eq fixes ht
  have hu' := SourceModel.token?_rebase_of_eq fixes hu
  have hguards := SourceModel.guards_iff (n := n) hs ht hu haft
  have hguards' :=
    SourceModel.guards_rebase_iff (n := n) hm.placed hpass.spares hs ht hs' ht' hu' haft
  have hsemi : s.isSemicolon = true := by
    by_contra h
    exact hdiff (iff_of_false (fun hg => h (hguards'.1 hg).1) fun hg => h (hguards.1 hg).1)
  have hstart : n.span.start ≤ t.span.start := by
    by_contra h
    exact hdiff (iff_of_false (fun hg => h (hguards'.1 hg).2.2.1) fun hg => h (hguards.1 hg).2.2.1)
  refine ⟨n, l, j, s, t, ha, hl, hs, hsemi, hbef, ht, hstart, ?_⟩
  by_contra hno
  obtain ⟨hnoj, hnol⟩ := not_or.1 hno
  -- The semicolon is as far from the token in front of it as before.
  obtain ⟨t'', s'', d, ht'', hs'', hline, hline'⟩ := SourceModel.exists_lines_of_none hm.placed
    hpass.spares hjl ht hs fun r hr hfront hback =>
      hnoj ⟨r, hr, hpass.start_eq_of_before hm hbef ht hs hr hfront hback⟩
  cases ht'.symm.trans ht''
  cases hs'.symm.trans hs''
  rcases hpass.not_guards_or_untouched hm hlab hc hab ha hl hf haft hlf hs hu hs' hu'
    fun R hR hprevious hq r hr hfix hplace =>
      hnol ⟨R, hR, hprevious, hq, r, hr, hfix, hplace⟩ with ⟨happart, hplain⟩ | hlines
  · exact hdiff (iff_of_false (fun hg => happart (hguards'.1 hg).2.2.2.2) (hplain j))
  · rw [hguards, hguards', hlines] at hdiff
    refine hdiff (and_congr_right fun _ => and_congr_right fun _ => and_congr_right fun _ => ?_)
    exact and_congr_left fun _ => by omega

omit hc in
/-- **How a pair comes to be judged by another rule.** -/
theorem reclassifies_of_resolve_ne {a b : Nat} (hab : m.tree.Adjacent a b)
    (hne : p.resolve (m.rebase fixes) a b ≠ p.resolve m a b) :
    p.Reclassifies m (m.rebase fixes) a b := by
  by_contra hno
  refine hne (SourceModel.Coherent.resolve_rebase_of_matches hpass.spares hm hlab hab
    fun r hr => ⟨fun hmem => ?_, fun hmem => ?_⟩)
  · exact not_not.1 fun hchange => hno ⟨r, hr, .inl ⟨hmem, hchange⟩⟩
  · exact not_not.1 fun hchange => hno ⟨r, hr, .inr ⟨hmem, hchange⟩⟩

end again

end SparingPass

/-- **What a second check proposes.**  In a model of a text, let the accepted fixes of a check
delete nothing but space.  The check of the model of the repaired text gives an answer, and has a
fix only for a pair that

* comes under another rule, since one of its statements spans several lines only now, or no more, or
* begins with a statement that is read as ending elsewhere, since its semicolon has been touched, or
* is to be joined, which the first check has proposed too, but another fix has been in the way.

A pair of the last kind that is of neither of the others does have a fix. -/
theorem check_twice (hm : m.Coherent NodeKind.isListItem) (hlab : m.LabelsHold)
    (hc : m.CommentsBetween) {white : Char → Bool} (h : p.check m = .ok reports)
    (hspace : ∀ r ∈ accepted m.text.toList (reports.filterMap Report.fix),
      m.DeletesOnlySpace white r) :
    ∃ again, p.check (m.rebase (reports.filterMap Report.fix)) = .ok again ∧
      (∀ R ∈ again, R.fix.isSome = true →
        (p.resolve (m.rebase (reports.filterMap Report.fix)) R.previous R.node ≠
            p.resolve m R.previous R.node ∧
          p.Reclassifies m (m.rebase (reports.filterMap Report.fix)) R.previous R.node) ∨
        ((m.rebase (reports.filterMap Report.fix)).lastToken R.previous ≠
            m.lastToken R.previous ∧
          TouchesSemicolon m reports (accepted m.text.toList (reports.filterMap Report.fix))
            R.previous) ∨
        LeavesOutJoin reports (accepted m.text.toList (reports.filterMap Report.fix))
          R.previous) ∧
      ∀ a b, m.tree.Adjacent a b →
        LeavesOutJoin reports (accepted m.text.toList (reports.filterMap Report.fix)) a →
        p.resolve (m.rebase (reports.filterMap Report.fix)) a b = p.resolve m a b →
        (m.rebase (reports.filterMap Report.fix)).lastToken a = m.lastToken a →
        ∃ R ∈ again, R.previous = a ∧ R.node = b ∧ R.fix.isSome = true := by
  have hpass : p.SparingPass m reports (reports.filterMap Report.fix) :=
    ⟨h, rfl, spares_of_deletesOnlySpace hm h hspace⟩
  have hm' := SourceModel.Coherent.rebase hpass.spares hm
  have hlab' : (m.rebase (reports.filterMap Report.fix)).LabelsHold :=
    SourceModel.LabelsHold.rebase hlab
  obtain ⟨again, hagain⟩ := exists_reports hm' hlab' p
  refine ⟨again, hagain, fun R hR hfix => ?_, fun a b hab hleft hresolve hlast =>
    hpass.exists_again_of_leavesOutJoin hm hlab hc hagain hab hleft hresolve hlast⟩
  obtain ⟨hab', -⟩ := propose_of_mem hm' hagain hR
  have hab := (SyntaxTree.adjacent_rebase _ _).1 hab'
  by_cases hresolve : p.resolve (m.rebase (reports.filterMap Report.fix)) R.previous R.node =
      p.resolve m R.previous R.node
  · by_cases hlast : (m.rebase (reports.filterMap Report.fix)).lastToken R.previous =
        m.lastToken R.previous
    · exact .inr (.inr (hpass.leavesOutJoin_of_kept hm hlab hc hagain hR hfix hresolve hlast))
    · exact .inr (.inl ⟨hlast, hpass.touchesSemicolon_of_lastToken_ne hm hlab hc hab hlast⟩)
  · exact .inl ⟨hresolve, hpass.reclassifies_of_resolve_ne hm hlab hab hresolve⟩

theorem check_rebase_eq (hl : m.tree.Linked) (hp : p.isEmpty = false) :
    p.check (m.rebase fixes) = p.checkPairs (m.rebase fixes) m.tree.pairs := by
  rw [check_eq hl.rebase hp]
  exact congrArg _ SyntaxTree.pairs_rebase

/-- `wanted` everywhere, but no break between a block and an empty statement. -/
def besideEmpty (wanted : Requirement) : Policy :=
  ⟨[⟨wanted, .single .any, .single .any⟩, ⟨.never, .single .block, .single .empty⟩]⟩

theorem deletesOnlySpace_emptyBehindBlock :
    emptyBehindBlock.DeletesOnlySpace JavaScript.isSpace (.removal 19 20) := by
  intro n hfront hback
  obtain rfl : n = 19 := by
    simp only [removal] at hfront hback
    omega
  exact ⟨⟨'\n', by decide +kernel, by decide⟩, by decide +kernel⟩

/-- The empty statement is to be joined with the block, and the line break for the clause comes in
its way. -/
theorem check_blank_emptyBehindBlock :
    (besideEmpty .blankLine).check emptyBehindBlock =
      .ok [⟨3, 4, .never, some (.removal 19 20)⟩,
        ⟨2, 5, .blankLine, some (.insertion 19 "\n")⟩] := by
  obtain ⟨hm, -, -, -, hpairs⟩ := emptyBehindBlock_model
  rw [check_eq hm.grown.linked rfl, hpairs]
  cbv

theorem space_blank_emptyBehindBlock :
    ∀ r ∈ accepted emptyBehindBlock.text.toList [.removal 19 20, .insertion 19 "\n"],
      emptyBehindBlock.DeletesOnlySpace JavaScript.isSpace r := by
  intro r hr
  rcases List.mem_pair.1 (mem_accepted hr).1 with rfl | rfl
  · exact deletesOnlySpace_emptyBehindBlock
  · exact SourceModel.deletesOnlySpace_of_insertion rfl

theorem check_again_blank_emptyBehindBlock :
    (besideEmpty .blankLine).check
        (emptyBehindBlock.rebase [.removal 19 20, .insertion 19 "\n"]) =
      .ok [⟨3, 4, .never, some (.removal 19 21)⟩] := by
  obtain ⟨hm, -, -, -, hpairs⟩ := emptyBehindBlock_model
  rw [check_rebase_eq hm.grown.linked rfl, hpairs]
  cbv

theorem check_twice_emptyBehindBlock :
    emptyBehindBlock.Coherent NodeKind.isListItem ∧ emptyBehindBlock.LabelsHold ∧
    emptyBehindBlock.CommentsBetween ∧
    (besideEmpty .blankLine).check emptyBehindBlock =
      .ok [⟨3, 4, .never, some (.removal 19 20)⟩,
        ⟨2, 5, .blankLine, some (.insertion 19 "\n")⟩] ∧
    (∀ r ∈ accepted emptyBehindBlock.text.toList [.removal 19 20, .insertion 19 "\n"],
      emptyBehindBlock.DeletesOnlySpace JavaScript.isSpace r) ∧
    (besideEmpty .blankLine).check
        (emptyBehindBlock.rebase [.removal 19 20, .insertion 19 "\n"]) =
      .ok [⟨3, 4, .never, some (.removal 19 21)⟩] ∧
    LeavesOutJoin
      [⟨3, 4, .never, some (.removal 19 20)⟩, ⟨2, 5, .blankLine, some (.insertion 19 "\n")⟩]
      (accepted emptyBehindBlock.text.toList [.removal 19 20, .insertion 19 "\n"]) 3 := by
  obtain ⟨hm, hlab, hc, -, -⟩ := emptyBehindBlock_model
  refine ⟨hm, hlab, hc, check_blank_emptyBehindBlock, space_blank_emptyBehindBlock,
    check_again_blank_emptyBehindBlock, ?_⟩
  obtain ⟨again, hagain, hwhy, -⟩ :=
    check_twice hm hlab hc check_blank_emptyBehindBlock space_blank_emptyBehindBlock
  cases check_again_blank_emptyBehindBlock.symm.trans hagain
  rcases hwhy _ (List.mem_singleton.2 rfl) rfl with ⟨hresolve, -⟩ | ⟨hlast, -⟩ | hleft
  · exact absurd (by cbv) hresolve
  · exact absurd (by cbv) hlast
  · exact hleft

/-- A model of a text for which a second check has a fix to propose, though the first pass has
deleted nothing but space. -/
structure ProposesAgain (p : Policy) (m : SourceModel) (reports again : List Report) : Prop where
  coherent : m.Coherent NodeKind.isListItem
  labels : m.LabelsHold
  comments : m.CommentsBetween
  spaced : m.Spaced JavaScript.isSpace
  checked : p.check m = .ok reports
  space : ∀ r ∈ accepted m.text.toList (reports.filterMap Report.fix),
    m.DeletesOnlySpace JavaScript.isSpace r
  checkedAgain : p.check (m.rebase (reports.filterMap Report.fix)) = .ok again
  fixable : ∃ R ∈ again, R.fix.isSome = true

/-- One case for each of the three ways: a block grows by a line, a semicolon comes back to the line
that it ends, and a join is left out. -/
theorem proposesAgain_each_way :
    ProposesAgain airy bracedPair
      [⟨2, 3, .always, some (.insertion 3 "\n")⟩, ⟨1, 4, .always, some (.insertion 5 "\n")⟩]
      [⟨1, 4, .blankLine, some (.insertion 6 "\n")⟩] ∧
    ProposesAgain (besideEmpty .always) emptyBehindBlock
      [⟨3, 4, .never, some (.removal 19 20)⟩] [⟨2, 5, .always, some (.insertion 20 "\n")⟩] ∧
    ProposesAgain (besideEmpty .blankLine) emptyBehindBlock
      [⟨3, 4, .never, some (.removal 19 20)⟩, ⟨2, 5, .blankLine, some (.insertion 19 "\n")⟩]
      [⟨3, 4, .never, some (.removal 19 21)⟩] := by
  obtain ⟨hm, hlab, hc, hspaced, hpairs⟩ := emptyBehindBlock_model
  refine ⟨?grown, ?joined, ?leftOut⟩
  case grown =>
    obtain ⟨hm, hlab, hc, hspaced, hpairs⟩ := bracedPair_model
    refine ⟨hm, hlab, hc, hspaced, ?_, ?_, ?_, _, List.mem_singleton.2 rfl, rfl⟩
    · rw [check_eq hm.grown.linked rfl, hpairs]
      cbv
    · intro r hr
      rcases List.mem_pair.1 (mem_accepted hr).1 with rfl | rfl <;>
        exact SourceModel.deletesOnlySpace_of_insertion rfl
    · rw [check_rebase_eq hm.grown.linked rfl, hpairs]
      cbv
  case joined =>
    refine ⟨hm, hlab, hc, hspaced, ?_, ?_, ?_, _, List.mem_singleton.2 rfl, rfl⟩
    · rw [check_eq hm.grown.linked rfl, hpairs]
      cbv
    · intro r hr
      rw [List.mem_singleton.1 (mem_accepted hr).1]
      exact deletesOnlySpace_emptyBehindBlock
    · rw [check_rebase_eq hm.grown.linked rfl, hpairs]
      cbv
  case leftOut =>
    exact ⟨hm, hlab, hc, hspaced, check_blank_emptyBehindBlock, space_blank_emptyBehindBlock,
      check_again_blank_emptyBehindBlock, _, List.mem_singleton.2 rfl, rfl⟩

end Policy

end Interline
