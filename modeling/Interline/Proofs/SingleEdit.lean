import Mathlib
import Interline.Proofs.Deletions
import Interline.Proofs.OnePass

/-! # One fix by itself

A fix is made for one pair of statements.  Here it is applied alone, and the pair is measured again.

* An insertion behind the last token of a statement leaves it the last token
  (`SourceModel.lastToken_rebase_insertion`), so a count after it is read off the old lines
  (`SourceModel.one_le_insertion_iff`, `SourceModel.two_le_insertion_iff`).  The fix for missing
  line breaks brings as many as are asked for, and no fewer would do (`Repair.breaks_exact`).
* A join leaves no line break, but it may change how the first statement is read: a semicolon that
  starts a line guards what has been joined to it (`Repair.count_join_iff`). -/

namespace Interline

open Replacement

theorem Replacement.accepted_singleton {text : List Char} {r : Replacement}
    (h : r.fits text = true) : accepted text [r] = [r] := by
  simp [accepted, accept, h]

namespace SourceModel

variable {m : SourceModel}

theorem exists_lines_in_front (hp : m.Placed) {i : Nat} {t : Token} (ht : m.token? i = some t)
    {r : Replacement} (hstart : r.start = t.span.stop)
    (hspares : m.tokens.Spares (accepted m.text.toList [r])) {j k : Nat} {v u : Token}
    (hjk : j < k) (hki : k ≤ i) (hv : m.token? j = some v) (hu : m.token? k = some u) :
    ∃ v' u' d, (m.rebase [r]).token? j = some v' ∧ (m.rebase [r]).token? k = some u' ∧
      u.span.startPos.line = v.span.stopPos.line + d ∧
      u'.span.startPos.line = v'.span.stopPos.line + d := by
  refine exists_lines_of_none hp hspares hjk hv hu fun x hx _ hback => ?_
  have hx : x = r := List.mem_singleton.1 (mem_accepted hx).1
  have hwidth := hp.separate.width ht
  have hle := hp.separate.start_le hki hu ht
  rw [hx, hstart] at hback
  omega

/-! ### An insertion behind a token -/

section insertion

variable (hp : m.Placed) {i : Nat} {t : Token} (ht : m.token? i = some t) (text : String)
include hp ht

theorem accepted_insertion :
    accepted m.text.toList [insertion t.span.stop text] = [insertion t.span.stop text] := by
  have hbound := Text.isBoundary_of_positionAt? (hp.stop ht)
  exact accepted_singleton (fits_iff.2 ⟨Nat.le_refl _, hbound, hbound⟩)

theorem spares_insertion :
    m.tokens.Spares (accepted m.text.toList [insertion t.span.stop text]) := by
  rw [accepted_insertion hp ht]
  intro r hr j u hu
  rw [List.mem_singleton.1 hr]
  have : m.DeletesOnlySpace (fun _ => true) (insertion t.span.stop text) :=
    deletesOnlySpace_of_insertion rfl
  exact this.spares hp ht rfl hu

theorem exists_lines_behind {k : Nat} {u : Token} (hik : i < k) (hu : m.token? k = some u) :
    ∃ t' u' d, (m.rebase [insertion t.span.stop text]).token? i = some t' ∧
      (m.rebase [insertion t.span.stop text]).token? k = some u' ∧
      u.span.startPos.line = t.span.stopPos.line + d ∧
      u'.span.startPos.line = t'.span.stopPos.line + (d + text.toList.count '\n') := by
  have hmem : insertion t.span.stop text ∈
      accepted m.text.toList [insertion t.span.stop text] := by
    simp [accepted_insertion hp ht]
  refine exists_lines_of_insertion hp (spares_insertion hp ht text) hik ht hu hmem (Nat.le_refl _)
    (hp.separate.apart hik ht hu) (fun x hx _ _ => ?_) rfl
  rw [accepted_insertion hp ht] at hx
  rw [List.mem_singleton.1 hx]

theorem exists_lines_aside {j k : Nat} {v u : Token} (hjk : j < k) (hside : k ≤ i ∨ i < j)
    (hv : m.token? j = some v) (hu : m.token? k = some u) :
    ∃ v' u' d, (m.rebase [insertion t.span.stop text]).token? j = some v' ∧
      (m.rebase [insertion t.span.stop text]).token? k = some u' ∧
      u.span.startPos.line = v.span.stopPos.line + d ∧
      u'.span.startPos.line = v'.span.stopPos.line + d := by
  rcases hside with hki | hij
  · exact exists_lines_in_front hp ht rfl (spares_insertion hp ht text) hjk hki hv hu
  · refine exists_lines_of_none hp (spares_insertion hp ht text) hjk hv hu
      fun x hx hfront hback => ?_
    rw [accepted_insertion hp ht, List.mem_singleton] at hx
    have := hp.separate.stop_lt hij ht hv
    simp only [hx, insertion] at hfront
    omega

theorem lastToken_rebase_insertion {a : Nat} (h : m.lastToken a = .ok i) :
    (m.rebase [insertion t.span.stop text]).lastToken a = .ok i := by
  have hspares := spares_insertion hp ht text
  obtain ⟨n, l, hn, hl⟩ := exists_lastIn h
  have hn' : (m.rebase [insertion t.span.stop text]).tree.node? a = _ := node?_rebase_of_eq hn
  have hl' := (lastIn_rebase hp hspares (fun _ _ _ => rfl)).trans hl
  rcases lastToken_cases hn hl h with ⟨rfl, hno⟩ | hg
  · -- A semicolon that shares its line with what follows has done so before.
    apply lastToken_of_not_guards hn' hl'
    intro j hg'
    obtain ⟨s', v', f, u', hs', hsemi, hbef, hv', haft, hu', -⟩ := id hg'
    have hbef : m.tokens.before i false = some j :=
      (TokenStore.before_rebase i false).symm.trans hbef
    have haft : m.tokens.after i false = some f := (TokenStore.after_rebase i false).symm.trans haft
    obtain ⟨v, hv, -⟩ := token?_rebase_eq_some hv'
    obtain ⟨u, hu, -⟩ := token?_rebase_eq_some hu'
    obtain ⟨⟨hji, -⟩, -⟩ := TokenStore.before_eq_some_iff.1 hbef
    obtain ⟨⟨hif, -⟩, -⟩ := TokenStore.after_eq_some_iff.1 haft
    have hlines := (guards_rebase_iff hp hspares ht hv hs' hv' hu' haft).1 hg'
    obtain ⟨w', x', d, hw', hx', hd, hd'⟩ :=
      exists_lines_aside hp ht text hji (.inl (Nat.le_refl i)) hv ht
    obtain ⟨y', z', e, hy', hz', he, he'⟩ := exists_lines_behind hp ht text hif hu
    cases hv'.symm.trans hw'
    cases hs'.symm.trans hx'
    cases hs'.symm.trans hy'
    cases hu'.symm.trans hz'
    apply hno j
    rw [guards_iff ht hv hu haft]
    obtain ⟨hsemi, -, hin, hne, heq⟩ := hlines
    exact ⟨hsemi, hbef, hin, by omega, by omega⟩
  · -- A guard stays away from the token in front of it, and keeps what follows on its line.
    apply lastToken_of_guards hn' hl'
    obtain ⟨s, v, f, u, hs, hsemi, hbef, hv, haft, hu, hin, hne, heq⟩ := id hg
    cases ht.symm.trans hv
    obtain ⟨⟨hil, -⟩, -⟩ := TokenStore.before_eq_some_iff.1 hbef
    obtain ⟨⟨hlf, -⟩, -⟩ := TokenStore.after_eq_some_iff.1 haft
    obtain ⟨t', s', d, ht', hs', hd, hd'⟩ := exists_lines_behind hp ht text hil hs
    obtain ⟨y', u', e, hy', hu', he, he'⟩ := exists_lines_aside hp ht text hlf (.inr hil) hs hu
    cases hs'.symm.trans hy'
    rw [guards_rebase_iff hp hspares hs ht hs' ht' hu' haft]
    have := hp.lined.across hil ht hs
    exact ⟨hsemi, hbef, hin, by omega, by omega⟩

theorem one_le_insertion_iff {f : Nat} {u : Token} (hif : i < f) (hu : m.token? f = some u) :
    1 ≤ Linebreaks.betweenTokens (m.rebase [insertion t.span.stop text]).tokens i f ↔
      t.span.stopPos.line < u.span.startPos.line + text.toList.count '\n' := by
  obtain ⟨t', u', d, ht', hu', hd, hd'⟩ := exists_lines_behind hp ht text hif hu
  rw [Linebreaks.one_le_betweenTokens_iff ht' hu']
  omega

theorem two_le_insertion_iff {f : Nat} {u v : Token} (hif : i < f) (hu : m.token? f = some u)
    (hv : m.token? (i + 1) = some v) :
    2 ≤ Linebreaks.betweenTokens (m.rebase [insertion t.span.stop text]).tokens i f ↔
      t.span.stopPos.line + 2 ≤ v.span.startPos.line + text.toList.count '\n' ∨
        ∃ j, i < j ∧ j < f ∧ m.tokens.LeavesLine j := by
  have hplaced := Placed.rebase hp (spares_insertion hp ht text)
  obtain ⟨t', u', -, ht', hu', -⟩ := exists_lines_behind hp ht text hif hu
  obtain ⟨t'', v', d, ht'', hv', hd, hd'⟩ :=
    exists_lines_behind hp ht text (Nat.lt_succ_self i) hv
  cases ht'.symm.trans ht''
  have hhere := TokenStore.leavesLine_iff ht' hv'
  -- Gaps further down are as wide as before.
  have haside : ∀ j, i < j → j < f → ((m.rebase [insertion t.span.stop text]).tokens.LeavesLine j ↔
      m.tokens.LeavesLine j) := by
    intro j hij hjf
    have hsize := TokenStore.get?_lt hu
    obtain ⟨x, hx⟩ := TokenStore.get?_isSome (s := m.tokens) (i := j) (by omega)
    obtain ⟨y, hy⟩ := TokenStore.get?_isSome (s := m.tokens) (i := j + 1) (by omega)
    obtain ⟨x', y', e, hx', hy', he, he'⟩ :=
      exists_lines_aside hp ht text (Nat.lt_succ_self j) (.inr hij) hx hy
    rw [TokenStore.leavesLine_iff hx' hy', TokenStore.leavesLine_iff hx hy]
    omega
  rw [Linebreaks.two_le_betweenTokens_iff hplaced.ascending hplaced.lined ht' hu' hif]
  constructor
  · rintro ⟨j, hij, hjf, hj⟩
    rcases Nat.lt_or_eq_of_le hij with hlt | rfl
    · exact .inr ⟨j, hlt, hjf, (haside j hlt hjf).1 hj⟩
    · rw [hhere] at hj
      exact .inl (by omega)
  · rintro (hwide | ⟨j, hij, hjf, hj⟩)
    · exact ⟨i, Nat.le_refl i, hif, hhere.2 (by omega)⟩
    · exact ⟨j, Nat.le_of_lt hij, hjf, (haside j hij hjf).2 hj⟩

end insertion

end SourceModel

/-! ### Line breaks that are missing -/

namespace Repair

variable {m : SourceModel}

section gap

variable (hp : m.Placed) {i f : Nat} {t u v : Token} (ht : m.token? i = some t)
  (hu : m.token? f = some u) (hv : m.token? (i + 1) = some v) (hif : i < f)
include hp ht hu hif

theorem not_leavesLine {j : Nat} (h : Linebreaks.betweenTokens m.tokens i f < 2) (hij : i ≤ j)
    (hjf : j < f) : ¬m.tokens.LeavesLine j := by
  intro hj
  have := (Linebreaks.two_le_betweenTokens_iff hp.ascending hp.lined ht hu hif).2 ⟨j, hij, hjf, hj⟩
  omega

theorem one_le_breaks_iff (copies : Nat) :
    1 ≤ Linebreaks.betweenTokens (m.rebase [breaks m t copies]).tokens i f ↔
      t.span.stopPos.line < u.span.startPos.line + copies := by
  have := SourceModel.one_le_insertion_iff hp ht (breaks m t copies).newText hif hu
  rwa [count_breaks] at this

include hv

theorem two_le_breaks_iff (copies : Nat) (h : Linebreaks.betweenTokens m.tokens i f < 2) :
    2 ≤ Linebreaks.betweenTokens (m.rebase [breaks m t copies]).tokens i f ↔
      t.span.stopPos.line + 2 ≤ v.span.startPos.line + copies := by
  have := SourceModel.two_le_insertion_iff hp ht (breaks m t copies).newText hif hu hv
  rw [count_breaks] at this
  apply this.trans
  constructor
  · rintro (hwide | ⟨j, hij, hjf, hj⟩)
    · exact hwide
    · exact absurd hj (not_leavesLine hp ht hu hif h (Nat.le_of_lt hij) hjf)
  · exact .inl

theorem breaks_of_shared_line (h : Linebreaks.betweenTokens m.tokens i f < 1) :
    Linebreaks.betweenTokens (m.rebase [breaks m t 1]).tokens i f = 1 ∧
      Linebreaks.betweenTokens (m.rebase [breaks m t 0]).tokens i f < 1 := by
  have hold := Linebreaks.one_le_betweenTokens_iff ht hu
  have hone := one_le_breaks_iff hp ht hu hif
  have htwo := two_le_breaks_iff hp ht hu hv hif 1 (by omega)
  have := hp.lined.across hif ht hu
  have := hp.lined.start_le hif hv hu
  have := hone 0
  have := hone 1
  omega

theorem breaks_of_no_blank_line {copies : Nat} (h : Linebreaks.betweenTokens m.tokens i f < 2)
    (hlack : v.span.startPos.line + (copies + 1) = t.span.stopPos.line + 2) :
    Linebreaks.betweenTokens (m.rebase [breaks m t (copies + 1)]).tokens i f = 2 ∧
      Linebreaks.betweenTokens (m.rebase [breaks m t copies]).tokens i f < 2 := by
  have htwo := two_le_breaks_iff hp ht hu hv hif (copies + 1) h
  have hfewer := two_le_breaks_iff hp ht hu hv hif copies h
  have := Linebreaks.betweenTokens_le_two (m.rebase [breaks m t (copies + 1)]).tokens i f
  omega

omit hu hif in
/-- The break behind a token makes up for the lines that the next one lacks. -/
theorem exists_breakAfter_eq (hnone : ¬m.tokens.LeavesLine i) :
    ∃ copies, breakAfter m i true = some (breaks m t (copies + 1)) ∧
      v.span.startPos.line + (copies + 1) = t.span.stopPos.line + 2 := by
  rw [TokenStore.leavesLine_iff ht hv] at hnone
  have := hp.lined.across (Nat.lt_succ_self i) ht hv
  by_cases hsame : v.span.startPos.line = t.span.stopPos.line
  · exact ⟨1, by simp [breakAfter_eq ht hv, hsame], by omega⟩
  · exact ⟨0, by simp [breakAfter_eq ht hv, hsame], by omega⟩

end gap

/-- **Missing line breaks are put in, and no more than needed.**  Let two nodes with code be apart.
The line breaks between them can be counted, and if there are fewer than asked for, the fix puts
copies of the line terminator of the text behind the last token of the first node.  With them the
count is what has been asked for, and with one copy fewer it would still be too low. -/
theorem breaks_exact (hp : m.Placed) {a b : Nat} {before after : Node}
    (ha : m.tree.node? a = some before) (hb : m.tree.node? b = some after)
    (hle : before.span.stop ≤ after.span.start)
    (hcode : ∃ x, m.tokens.CodeIn before.span (fun _ => true) x)
    (hcode' : ∃ x, m.tokens.CodeIn after.span (fun _ => true) x) :
    ∃ k, Linebreaks.count m a b = .ok k ∧ ∀ q : Requirement, q = .always ∨ q = .blankLine →
      q.isSatisfiedBy k = false →
        ∃ i t copies, m.lastToken a = .ok i ∧ m.token? i = some t ∧
          propose q m a b = .ok (some (breaks m t (copies + 1))) ∧
          Linebreaks.count (m.rebase [breaks m t (copies + 1)]) a b =
            .ok (if q = .always then 1 else 2) ∧
          ∃ k', Linebreaks.count (m.rebase [breaks m t copies]) a b = .ok k' ∧
            q.isSatisfiedBy k' = false := by
  have hs := hp.separate
  obtain ⟨x, hx⟩ := hcode
  obtain ⟨y, hy⟩ := hcode'
  obtain ⟨l, hl⟩ := TokenStore.exists_lastIn hs hx
  obtain ⟨f, hf⟩ := TokenStore.exists_firstIn hs hy
  obtain ⟨i, hi⟩ : ∃ i, m.lastToken a = .ok i := ⟨_, SourceModel.lastToken_eq ha hl⟩
  have hfirst := SourceModel.firstToken_eq hb hf
  have hif : i < f := Nat.lt_of_le_of_lt (SourceModel.lastToken_le ha hl hi)
    (hs.lastIn_lt_firstIn hle hl hf)
  obtain ⟨u, hu⟩ := SourceModel.exists_token_of_firstToken hs hfirst
  obtain ⟨-, t, -, ht, -⟩ := SourceModel.contains_lastToken hs hi
  obtain ⟨v, hv⟩ := TokenStore.get?_isSome (Nat.lt_of_le_of_lt hif (TokenStore.get?_lt hu))
  -- An insertion changes neither of the tokens that the count is about.
  have hcount : ∀ copies, Linebreaks.count (m.rebase [breaks m t copies]) a b =
      .ok (Linebreaks.betweenTokens (m.rebase [breaks m t copies]).tokens i f) := fun copies =>
    Linebreaks.count_eq (SourceModel.lastToken_rebase_insertion hp ht _ hi)
      (SourceModel.firstToken_rebase (SourceModel.spares_insertion hp ht _) hp hb hf)
  refine ⟨_, Linebreaks.count_eq hi hfirst, fun q hq hunmet => ?_⟩
  rcases hq with rfl | rfl
  case inl =>
    have hzero : Linebreaks.betweenTokens m.tokens i f < 1 := by
      simpa [Requirement.isSatisfiedBy] using hunmet
    obtain ⟨hexact, hfewer⟩ := breaks_of_shared_line hp ht hu hv hif hzero
    refine ⟨i, t, 0, hi, ht, ?_, ?_, _, hcount 0, ?_⟩
    · rw [Policy.propose_eq (by simp) hunmet hi, breakAfter_eq ht hv]
      rfl
    · rw [hcount, hexact, if_pos rfl]
    · simpa [Requirement.isSatisfiedBy] using hfewer
  case inr =>
    have hlow : Linebreaks.betweenTokens m.tokens i f < 2 := by
      simpa [Requirement.isSatisfiedBy] using hunmet
    obtain ⟨copies, hbreak, hlack⟩ :=
      exists_breakAfter_eq hp ht hv (not_leavesLine hp ht hu hif hlow (Nat.le_refl i) hif)
    obtain ⟨hexact, hfewer⟩ := breaks_of_no_blank_line hp ht hu hv hif hlow hlack
    refine ⟨i, t, copies, hi, ht, ?_, ?_, _, hcount copies, ?_⟩
    · rw [Policy.propose_eq (by simp) hunmet hi]
      exact congrArg Except.ok hbreak
    · rw [hcount, hexact, if_neg (by simp)]
    · simpa [Requirement.isSatisfiedBy] using hfewer

/-- A statement that ends on the line below its code, with a comment behind the code. -/
def commentedEnd : SourceModel :=
  .ofOffsets "a/**/\r\n;b"
    [⟨.identifier, 0, 1, none⟩, ⟨.blockComment, 1, 5, none⟩, ⟨.punctuator, 7, 8, none⟩,
      ⟨.identifier, 8, 9, none⟩]
    [⟨0, .statement (.expression false), 0, 8⟩, ⟨0, .statement (.expression false), 8, 9⟩]
    (by decide)

theorem breaks_exact_commentedEnd :
    commentedEnd.Placed ∧ Linebreaks.count commentedEnd 1 2 = .ok 1 ∧
    propose .blankLine commentedEnd 1 2 = .ok (some (.insertion 1 "\r\n\r\n")) ∧
    Linebreaks.count (commentedEnd.rebase [.insertion 1 "\r\n\r\n"]) 1 2 = .ok 2 ∧
    ∃ k', Linebreaks.count (commentedEnd.rebase [.insertion 1 "\r\n"]) 1 2 = .ok k' ∧
      Requirement.blankLine.isSatisfiedBy k' = false := by
  have hp : commentedEnd.Placed := by decide +kernel
  have hone : Linebreaks.count commentedEnd 1 2 = .ok 1 := by cbv
  have hfix : propose .blankLine commentedEnd 1 2 =
      .ok (some (.insertion 1 "\r\n\r\n")) := by cbv
  refine ⟨hp, hone, hfix, ?_⟩
  have hspans : ∃ before after, commentedEnd.tree.node? 1 = some before ∧
      commentedEnd.tree.node? 2 = some after ∧ before.span.stop ≤ after.span.start ∧
      commentedEnd.tokens.CodeIn before.span (fun _ => true) 0 ∧
      commentedEnd.tokens.CodeIn after.span (fun _ => true) 3 :=
    ⟨_, _, rfl, rfl, by decide +kernel, ⟨_, rfl, by decide +kernel, by decide +kernel, rfl⟩,
      ⟨_, rfl, by decide +kernel, by decide +kernel, rfl⟩⟩
  obtain ⟨before, after, ha, hb, hle, hcode, hcode'⟩ := hspans
  obtain ⟨k, hk, hall⟩ := breaks_exact hp ha hb hle ⟨0, hcode⟩ ⟨3, hcode'⟩
  cases hone.symm.trans hk
  obtain ⟨i, t, copies, hi, ht, hbreaks, hexact, hfewer⟩ := hall .blankLine (.inr rfl) rfl
  have hlast : commentedEnd.lastToken 1 = .ok 0 := by cbv
  cases hlast.symm.trans hi
  -- The fix is the one computed, so it has two copies of the line terminator.
  have hsame := Option.some.inj (Except.ok.inj (hfix.symm.trans hbreaks))
  have hcopies := count_breaks commentedEnd t (copies + 1)
  rw [← hsame] at hcopies hexact
  have htwo : copies + 1 = 2 := hcopies.symm.trans (by decide)
  obtain rfl : copies = 1 := by omega
  cases ht
  exact ⟨hexact, hfewer⟩

end Repair

/-! ### Line breaks to be taken out -/

namespace SourceModel

/-- The last token of a node is a semicolon, and it stands on a line below the code before it. -/
def SemicolonBelow (m : SourceModel) (a : Nat) : Prop :=
  ∃ n l j s t, m.tree.node? a = some n ∧ m.tokens.lastIn n.span (fun _ => true) = some l ∧
    m.token? l = some s ∧ s.isSemicolon = true ∧ m.tokens.before l false = some j ∧
    m.token? j = some t ∧ n.span.start ≤ t.span.start ∧
    s.span.startPos.line ≠ t.span.stopPos.line

end SourceModel

namespace Repair

variable {m : SourceModel}

section removal

variable (hp : m.Placed) {i f : Nat} {s u : Token} (hsi : m.token? i = some s)
  (hu : m.token? f = some u) (hif : i < f) {white : Char → Bool}
  (hspace : m.DeletesOnlySpace white (removal s.span.stop u.span.start))
include hp hsi hu hif

theorem eq_succ_of_deletesOnlySpace
    (hspace : m.DeletesOnlySpace white (removal s.span.stop u.span.start)) : f = i + 1 := by
  have hs := hp.separate
  by_contra hne
  obtain ⟨v, hv⟩ : ∃ v, m.token? (i + 1) = some v := by
    have := TokenStore.get?_lt hu
    exact TokenStore.get?_isSome (by omega)
  have hfront := hs.apart (Nat.lt_succ_self i) hsi hv
  have hback := hs.start_lt (by omega) hv hu
  exact (hspace v.span.start hfront hback).2 ⟨i + 1, v, hv, Nat.le_refl _, hs.width hv⟩

theorem accepted_removal : accepted m.text.toList [removal s.span.stop u.span.start] =
    [removal s.span.stop u.span.start] :=
  accepted_singleton (fits_iff.2 ⟨hp.separate.apart hif hsi hu,
    Text.isBoundary_of_positionAt? (hp.stop hsi), Text.isBoundary_of_positionAt? (hp.start hu)⟩)

include hspace

theorem spares_removal :
    m.tokens.Spares (accepted m.text.toList [removal s.span.stop u.span.start]) := by
  rw [accepted_removal hp hsi hu hif]
  intro r hr j v hv
  rw [List.mem_singleton.1 hr]
  exact hspace.spares hp hsi rfl hv

theorem exists_lines_joined :
    ∃ s' u', (m.rebase [removal s.span.stop u.span.start]).token? i = some s' ∧
      (m.rebase [removal s.span.stop u.span.start]).token? f = some u' ∧
      u'.span.startPos.line = s'.span.stopPos.line := by
  have hmem : removal s.span.stop u.span.start ∈
      accepted m.text.toList [removal s.span.stop u.span.start] := by
    simp [accepted_removal hp hsi hu hif]
  refine SourceModel.exists_lines_of_removal hp (spares_removal hp hsi hu hif hspace) hif hsi hu
    hmem (Nat.le_refl _) (hp.separate.apart hif hsi hu) (fun x hx _ _ => ?_) rfl rfl rfl
  rw [accepted_removal hp hsi hu hif] at hx
  rw [List.mem_singleton.1 hx]

/-- A semicolon that ends a statement on a line of its own guards what is joined to it. -/
theorem guards_joined_iff {n : Node} {j : Nat} {t : Token} (haft : m.tokens.after i false = some f)
    (hj : m.token? j = some t) (hbef : m.tokens.before i false = some j) :
    (m.rebase [removal s.span.stop u.span.start]).Guards
        (n.rebase (m.rebase [removal s.span.stop u.span.start]).text.toList
          (accepted m.text.toList [removal s.span.stop u.span.start])) i j ↔
      s.isSemicolon = true ∧ n.span.start ≤ t.span.start ∧
        s.span.startPos.line ≠ t.span.stopPos.line := by
  have hspares := spares_removal hp hsi hu hif hspace
  obtain ⟨⟨hji, -⟩, -⟩ := TokenStore.before_eq_some_iff.1 hbef
  obtain ⟨s', u', hs', hu', hline⟩ := exists_lines_joined hp hsi hu hif hspace
  obtain ⟨t', s'', d, ht', hs'', hd, hd'⟩ :=
    SourceModel.exists_lines_in_front hp hsi rfl hspares hji (Nat.le_refl i) hj hsi
  cases hs'.symm.trans hs''
  rw [SourceModel.guards_rebase_iff hp hspares hsi hj hs' ht' hu' haft]
  constructor
  · rintro ⟨hsemi, -, hin, hne, -⟩
    exact ⟨hsemi, hin, by omega⟩
  · rintro ⟨hsemi, hin, hne⟩
    exact ⟨hsemi, hbef, hin, by omega, hline.symm⟩

section statement

variable {a : Nat} {n : Node} (ha : m.tree.node? a = some n)
  (hl : m.tokens.lastIn n.span (fun _ => true) = some i) (haft : m.tokens.after i false = some f)
include ha hl haft

/-- A statement that has ended above its last semicolon is read as ending there. -/
theorem lastToken_joined_above (h : m.SemicolonBelow a) :
    ∃ j, (m.rebase [removal s.span.stop u.span.start]).lastToken a = .ok j ∧
      1 ≤ Linebreaks.betweenTokens (m.rebase [removal s.span.stop u.span.start]).tokens j f := by
  have hspares := spares_removal hp hsi hu hif hspace
  obtain ⟨s', u', hs', hu', hline⟩ := exists_lines_joined hp hsi hu hif hspace
  obtain ⟨n', l, j, s'', t, hn, hl', hs'', hsemi, hbef, hj, hin, hne⟩ := h
  cases ha.symm.trans hn
  cases hl.symm.trans hl'
  cases hsi.symm.trans hs''
  have hg := (guards_joined_iff hp hsi hu hif hspace haft hj hbef).2 ⟨hsemi, hin, hne⟩
  have hlast := (SourceModel.lastIn_rebase hp hspares fun _ _ _ => rfl).trans hl
  refine ⟨j, SourceModel.lastToken_of_guards (SourceModel.node?_rebase_of_eq ha) hlast hg, ?_⟩
  -- The semicolon is on a line below that token, and on the line of what follows.
  obtain ⟨s'', t', -, -, hs'', -, hbef', ht', -, -, -, hne', -⟩ := hg
  cases hs'.symm.trans hs''
  have hlined := (SourceModel.Placed.rebase hp hspares).lined
  have := hlined.across (TokenStore.before_eq_some_iff.1 hbef').1.1 ht' hs'
  have := hlined.within hs'
  exact (Linebreaks.one_le_betweenTokens_iff ht' hu').2 (by omega)

theorem lastToken_joined (h : ¬m.SemicolonBelow a) :
    (m.rebase [removal s.span.stop u.span.start]).lastToken a = .ok i ∧
      Linebreaks.betweenTokens (m.rebase [removal s.span.stop u.span.start]).tokens i f = 0 := by
  have hspares := spares_removal hp hsi hu hif hspace
  have hlast := (SourceModel.lastIn_rebase hp hspares fun _ _ _ => rfl).trans hl
  constructor
  · refine SourceModel.lastToken_of_not_guards (SourceModel.node?_rebase_of_eq ha) hlast ?_
    intro j hg
    obtain ⟨-, t', -, -, -, -, hbef, ht', -⟩ := id hg
    replace hbef := (TokenStore.before_rebase i false).symm.trans hbef
    obtain ⟨t, hj, -⟩ := SourceModel.token?_rebase_eq_some ht'
    obtain ⟨hsemi, hin, hne⟩ := (guards_joined_iff hp hsi hu hif hspace haft hj hbef).1 hg
    exact h ⟨n, i, j, s, t, ha, hl, hsi, hsemi, hbef, hj, hin, hne⟩
  · obtain ⟨s', u', hs', hu', hline⟩ := exists_lines_joined hp hsi hu hif hspace
    have := Linebreaks.one_le_betweenTokens_iff hs' hu'
    omega

end statement

end removal

/-- **A join leaves no line break, unless it pulls the next statement behind a semicolon that starts
a line.**  Let the join of two neighbours delete nothing but space.  Measured in the joined text they
share a line, exactly if the first one does not end with a semicolon on a line below its code: such
a semicolon guards what now follows on its line, so the statement is read as ending above. -/
theorem count_join_iff {sort : NodeKind → Bool} (hm : m.Coherent sort) {a b : Nat}
    (hab : m.tree.Adjacent a b) {r : Replacement} (h : propose .never m a b = .ok (some r))
    {white : Char → Bool} (hspace : m.DeletesOnlySpace white r) :
    ∃ k, Linebreaks.count (m.rebase [r]) a b = .ok k ∧ (k = 0 ↔ ¬m.SemicolonBelow a) := by
  have hp := hm.placed
  have hs := hp.separate
  obtain ⟨before, after, ha, hb, hle⟩ := hm.exists_nodes hab
  obtain ⟨i, f, s, u, hi, hfirst, hsi, hu, -, -, rfl⟩ := join_eq_some h
  obtain ⟨n, l, ha', hl⟩ := SourceModel.exists_lastIn hi
  obtain ⟨n', hb', hf⟩ := SourceModel.exists_firstIn hfirst
  cases ha.symm.trans ha'
  cases hb.symm.trans hb'
  have hlf := hs.lastIn_lt_firstIn hle hl hf
  have hil := SourceModel.lastToken_le ha hl hi
  have hif : i < f := by omega
  -- No token is skipped, so the statement ends where its node does.
  obtain rfl := eq_succ_of_deletesOnlySpace hp hsi hu hif hspace
  obtain rfl : i = l := by omega
  have haft : m.tokens.after i false = some (i + 1) := by
    obtain ⟨⟨v, hv, -, hcode, -⟩, -⟩ := (TokenStore.firstIn_eq_some_iff hs).1 hf
    exact TokenStore.after_eq_some_iff.2
      ⟨⟨hif, v, hv, by simp [TokenStore.counts, hcode]⟩, fun _ hlt _ => hlt⟩
  have hfirst' := SourceModel.firstToken_rebase (spares_removal hp hsi hu hif hspace) hp hb hf
  by_cases hbelow : m.SemicolonBelow a
  case pos =>
    obtain ⟨j, hj, hcount⟩ := lastToken_joined_above hp hsi hu hif hspace ha hl haft hbelow
    refine ⟨_, Linebreaks.count_eq hj hfirst', ?_⟩
    simp only [hbelow, not_true_eq_false, iff_false]
    omega
  case neg =>
    obtain ⟨hi', hcount⟩ := lastToken_joined hp hsi hu hif hspace ha hl haft hbelow
    exact ⟨_, Linebreaks.count_eq hi' hfirst', by simp [hbelow, hcount]⟩

theorem count_join_apart :
    Policy.apart.Coherent NodeKind.isListItem ∧ Policy.apart.tree.Adjacent 1 3 ∧
    propose .never Policy.apart 1 3 = .ok (some (.removal 9 11)) ∧
    Policy.apart.DeletesOnlySpace JavaScript.isSpace (.removal 9 11) ∧
    Linebreaks.count (Policy.apart.rebase [.removal 9 11]) 1 3 = .ok 0 := by
  have hpairs : Policy.apart.tree.pairs = [(1, 3)] := by decide +kernel
  have hm : Policy.apart.Coherent NodeKind.isListItem :=
    ⟨SourceModel.grown_ofOffsets _, by decide +kernel, by decide +kernel, by decide +kernel⟩
  have hab : Policy.apart.tree.Adjacent 1 3 := by
    rw [← SyntaxTree.mem_pairs_iff hm.grown.linked, hpairs]
    simp
  have hfix : propose .never Policy.apart 1 3 = .ok (some (.removal 9 11)) := by cbv
  have hspace : Policy.apart.DeletesOnlySpace JavaScript.isSpace (.removal 9 11) := by
    decide +kernel
  -- The first statement ends with its brace.
  have hlast : Policy.apart.tokens.lastIn ⟨0, 9, ⟨1, 0⟩, ⟨1, 9⟩⟩ (fun _ => true) = some 5 := by
    decide +kernel
  have hno : ¬Policy.apart.SemicolonBelow 1 := by
    rintro ⟨n, l, _, s, _, hn, hl, hs, hsemi, -⟩
    cases hn
    cases hlast.symm.trans hl
    cases hs
    cases hsemi
  obtain ⟨k, hk, hzero⟩ := count_join_iff hm hab hfix hspace
  rw [hzero.2 hno] at hk
  exact ⟨hm, hab, hfix, hspace, hk⟩

/-- A semicolon with nothing else on its line. -/
def loneSemicolon : SourceModel :=
  .ofOffsets "foo()\n;\nbar()"
    [⟨.identifier, 0, 3, none⟩, ⟨.punctuator, 3, 4, none⟩, ⟨.punctuator, 4, 5, none⟩,
      ⟨.punctuator, 6, 7, none⟩, ⟨.identifier, 8, 11, none⟩, ⟨.punctuator, 11, 12, none⟩,
      ⟨.punctuator, 12, 13, none⟩]
    [⟨0, .statement (.expression false), 0, 7⟩, ⟨0, .statement (.expression false), 8, 13⟩]
    (by decide)

theorem not_count_join_loneSemicolon :
    loneSemicolon.Coherent NodeKind.isListItem ∧ loneSemicolon.LabelsHold ∧
    loneSemicolon.CommentsBetween ∧ loneSemicolon.Spaced JavaScript.isSpace ∧
    loneSemicolon.tree.Adjacent 1 2 ∧ Linebreaks.count loneSemicolon 1 2 = .ok 1 ∧
    propose .never loneSemicolon 1 2 = .ok (some (.removal 7 8)) ∧
    loneSemicolon.DeletesOnlySpace JavaScript.isSpace (.removal 7 8) ∧
    Linebreaks.count (loneSemicolon.rebase [.removal 7 8]) 1 2 = .ok 1 := by
  have hpairs : loneSemicolon.tree.pairs = [(1, 2)] := by decide +kernel
  have hm : loneSemicolon.Coherent NodeKind.isListItem :=
    ⟨SourceModel.grown_ofOffsets _, by decide +kernel, by decide +kernel, by decide +kernel⟩
  refine ⟨hm, by decide +kernel, ?_, by decide +kernel, ?_, by cbv, by cbv, by decide +kernel,
    by cbv⟩
  · rw [SourceModel.commentsBetween_iff hm.grown, hpairs]
    decide +kernel
  · rw [← SyntaxTree.mem_pairs_iff hm.grown.linked, hpairs]
    simp

end Repair

end Interline
