import Mathlib
import Interline.Proofs.Deletions
import Interline.Proofs.ModelCheck
import Interline.Proofs.Reports

/-! # Where fixes are

A fix is made for two neighbours, and it stays between them: from the end of the last token of the
first one to the start of the first token of the second one (`Repair.gap_of_propose`).  It meets no
comment there (`Repair.spares_comments`), although a join looks for comments among the indices of
the tokens, and the edit is about bytes.

None of this depends on lines and columns.  The tree has to nest (`SyntaxTree.Nested`), tokens must
not overlap (`TokenStore.Separate`), and their ends must be places of the text (`OnBoundaries`);
then `Policy.fixes_in_gaps` states it for all fixes of a check. -/

namespace Interline

open Replacement

namespace SourceModel

/-- Tokens start and end at places of the text. -/
def OnBoundaries (m : SourceModel) : Prop :=
  ∀ {i : Nat} {t : Token}, m.token? i = some t →
    Text.isBoundary m.text.toList t.span.start = true ∧
      Text.isBoundary m.text.toList t.span.stop = true

theorem Placed.onBoundaries {m : SourceModel} (hp : m.Placed) : m.OnBoundaries := fun ht =>
  ⟨Text.isBoundary_of_positionAt? (hp.start ht), Text.isBoundary_of_positionAt? (hp.stop ht)⟩

end SourceModel

/-! ### The fix of a pair -/

namespace Repair

section pair

variable {m : SourceModel} (hs : m.tokens.Separate) {a b i f : Nat} {t u : Token}
  {q : Requirement} {r : Replacement} (h : propose q m a b = .ok (some r))
  (hi : m.lastToken a = .ok i) (ht : m.token? i = some t) (hf : m.firstToken b = .ok f)
  (hu : m.token? f = some u)
include h hi ht hf hu

/-- A fix is behind the first statement, and takes out nothing or all that is in front of the second
one. -/
theorem ends_of_propose : r.start = t.span.stop ∧
    (r.stop = r.start ∨
      r.stop = u.span.start ∧ (m.tokens.between i f true).any Token.isComment = false) := by
  obtain ⟨i', t', hi', ht', hstart, -, hstop⟩ := Policy.fix_cases h
  cases hi.symm.trans hi'
  cases ht.symm.trans ht'
  rcases hstop with ⟨-, hstop⟩ | ⟨-, f', u', hf', hu', hstop, hno⟩
  · exact ⟨hstart, .inl hstop⟩
  · cases hf.symm.trans hf'
    cases hu.symm.trans hu'
    exact ⟨hstart, .inr ⟨hstop, hno⟩⟩

include hs

theorem spares_comments {k : Nat} {c : Token} (hc : m.token? k = some c)
    (hcomment : c.isComment = true) : c.span.stop ≤ r.start ∨ r.stop ≤ c.span.start := by
  obtain ⟨hstart, hstop⟩ := ends_of_propose h hi ht hf hu
  rcases Nat.lt_or_ge i k with hik | hki
  case inr =>
    have := hs.stop_le hki hc ht
    exact .inl (by omega)
  right
  rcases hstop with hstop | ⟨hstop, hno⟩
  · have := hs.apart hik ht hc
    omega
  · -- Strictly between the two tokens there is no comment that could be joined across.
    rcases Nat.lt_or_ge k f with hkf | hfk
    · have hmet := TokenStore.any_between_iff.2 ⟨k, c, hik, hkf, hc, hcomment⟩
      rw [hno] at hmet
      cases hmet
    · have := hs.start_le hfk hu hc
      omega

variable (hif : i < f)
include hif

theorem gap_of_propose :
    t.span.stop ≤ r.start ∧ r.start ≤ r.stop ∧ r.stop ≤ u.span.start := by
  have hgap := hs.apart hif ht hu
  obtain ⟨hstart, hstop | ⟨hstop, -⟩⟩ := ends_of_propose h hi ht hf hu <;> omega

theorem fits_of_propose (hb : m.OnBoundaries) : r.fits m.text.toList = true := by
  have hgap := hs.apart hif ht hu
  obtain ⟨hstart, hstop⟩ := ends_of_propose h hi ht hf hu
  rw [fits_iff, hstart]
  rcases hstop with hstop | ⟨hstop, -⟩
  · rw [hstop, hstart]
    exact ⟨Nat.le_refl _, (hb ht).2, (hb ht).2⟩
  · rw [hstop]
    exact ⟨hgap, (hb ht).2, (hb hu).1⟩

end pair

end Repair

/-! ### All fixes -/

namespace Policy

/-- **Every fix stays in its gap and spares comments.**  Let the spans of the tree nest, tokens be
apart and end at places of the text, and statements and clauses have code and cut no token.  Then a
check has an answer, and a fix in it is between the last token of the one statement and the first
token of the other, with both ends at places of the text, and no comment in it; so it fits. -/
theorem fixes_in_gaps (p : Policy) {m : SourceModel} (hg : m.tree.Grown) (hn : m.tree.Nested)
    (hs : m.tokens.Separate) (hb : m.OnBoundaries) (hc : m.Covered NodeKind.isListItem)
    (hlab : m.LabelsHold) :
    ∃ reports, p.check m = .ok reports ∧ ∀ report ∈ reports, ∀ r, report.fix = some r →
      ∃ i f t u, m.lastToken report.previous = .ok i ∧ m.token? i = some t ∧
        m.firstToken report.node = .ok f ∧ m.token? f = some u ∧
        t.span.stop ≤ r.start ∧ r.start ≤ r.stop ∧ r.stop ≤ u.span.start ∧
        Text.isBoundary m.text.toList r.start = true ∧
        Text.isBoundary m.text.toList r.stop = true ∧
        (∀ k c, m.token? k = some c → c.isComment = true →
          c.span.stop ≤ r.start ∨ r.stop ≤ c.span.start) ∧
        r.fits m.text.toList = true := by
  have hverdict : ∀ a b, m.tree.Adjacent a b → ∃ v, p.judge m (a, b) = .ok v := by
    intro a b hab
    obtain ⟨_, _, hj⟩ := hc.exists_judge hs hlab p hab
    exact ⟨_, hj⟩
  obtain ⟨reports, hreports⟩ := exists_answer hg.linked hverdict
  refine ⟨reports, hreports, fun report hmem r hfix => ?_⟩
  obtain ⟨hab, -, ⟨k, hj⟩, hpropose⟩ := reports_of_mem hg.linked hreports hmem
  rw [hfix] at hpropose
  obtain ⟨i, f, hi, hf, -⟩ := Linebreaks.count_eq_ok (judge_eq_ok hj).2
  obtain ⟨-, t, -, ht, -⟩ := SourceModel.contains_lastToken hs hi
  obtain ⟨u, hu⟩ := SourceModel.exists_token_of_firstToken hs hf
  have hif := SourceModel.lastToken_lt_firstToken hg.linked hn hs hab hi hf
  obtain ⟨hfront, hle, hback⟩ := Repair.gap_of_propose hs hpropose hi ht hf hu hif
  have hfits := Repair.fits_of_propose hs hpropose hi ht hf hu hif hb
  obtain ⟨-, hstart, hstop⟩ := fits_iff.1 hfits
  exact ⟨i, f, t, u, hi, ht, hf, hu, hfront, hle, hback, hstart, hstop,
    fun k c => Repair.spares_comments hs hpropose hi ht hf hu, hfits⟩

/-- A label in front, and a comment on the line of the second statement. -/
def commentBehind : SourceModel :=
  .ofOffsets "l: é;\n\nb; /* ü */ \x7b\x7d"
    [⟨.identifier, 0, 1, none⟩, ⟨.punctuator, 1, 2, none⟩, ⟨.identifier, 3, 5, none⟩,
      ⟨.punctuator, 5, 6, none⟩, ⟨.identifier, 8, 9, none⟩, ⟨.punctuator, 9, 10, none⟩,
      ⟨.blockComment, 11, 19, none⟩, ⟨.punctuator, 20, 21, none⟩,
      ⟨.punctuator, 21, 22, some .block⟩]
    [⟨0, .statement .labeled, 0, 6⟩, ⟨1, .statement (.expression false), 3, 6⟩,
      ⟨0, .statement (.expression false), 8, 10⟩, ⟨0, .statement .block, 20, 22⟩] (by decide)

theorem fixes_in_gaps_commentBehind :
    commentBehind.tree.Grown ∧ commentBehind.Placed ∧ commentBehind.tree.Nested ∧
    commentBehind.Covered NodeKind.isListItem ∧ commentBehind.LabelsHold ∧
    check ⟨[⟨.never, .single .any, .single .any⟩, ⟨.blankLine, .single .any, .single .block⟩]⟩
        commentBehind =
      .ok [⟨1, 3, .never, some (.removal 6 8)⟩,
        ⟨3, 4, .blankLine, some (.insertion 10 "\n\n")⟩] ∧
    (∃ i f t u, commentBehind.lastToken 1 = .ok i ∧ commentBehind.token? i = some t ∧
      commentBehind.firstToken 3 = .ok f ∧ commentBehind.token? f = some u ∧
      t.span.stop ≤ 6 ∧ 8 ≤ u.span.start) ∧
    (Replacement.removal 6 8).fits commentBehind.text.toList = true ∧
    (∀ k c, commentBehind.token? k = some c → c.isComment = true →
      c.span.stop ≤ 10 ∨ 10 ≤ c.span.start) ∧
    (Replacement.insertion 10 "\n\n").fits commentBehind.text.toList = true := by
  have hg : commentBehind.tree.Grown := SourceModel.grown_ofOffsets _
  have hp : commentBehind.Placed := by decide +kernel
  have hn : commentBehind.tree.Nested := by decide +kernel
  have hc : commentBehind.Covered NodeKind.isListItem := by decide +kernel
  have hlab : commentBehind.LabelsHold := by decide +kernel
  have hpairs : commentBehind.tree.pairs = [(1, 3), (3, 4)] := by decide +kernel
  have hcheck : check
      ⟨[⟨.never, .single .any, .single .any⟩, ⟨.blankLine, .single .any, .single .block⟩]⟩
      commentBehind = .ok [⟨1, 3, .never, some (.removal 6 8)⟩,
        ⟨3, 4, .blankLine, some (.insertion 10 "\n\n")⟩] := by
    rw [check_eq hg.linked rfl, hpairs]
    cbv
  obtain ⟨reports, hreports, hall⟩ := fixes_in_gaps
    ⟨[⟨.never, .single .any, .single .any⟩, ⟨.blankLine, .single .any, .single .block⟩]⟩
    hg hn hp.separate hp.onBoundaries hc hlab
  cases hcheck.symm.trans hreports
  obtain ⟨i, f, t, u, hi, ht, hf, hu, hfront, -, hback, -, -, -, hjoin⟩ :=
    hall _ List.mem_cons_self _ rfl
  obtain ⟨-, -, -, -, -, -, -, -, -, -, -, -, -, hcomments, hbreak⟩ :=
    hall _ (List.mem_cons_of_mem _ List.mem_cons_self) _ rfl
  exact ⟨hg, hp, hn, hc, hlab, hcheck, ⟨i, f, t, u, hi, ht, hf, hu, hfront, hback⟩, hjoin,
    hcomments, hbreak⟩

end Policy

end Interline
