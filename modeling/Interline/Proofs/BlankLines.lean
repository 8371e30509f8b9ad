import Mathlib
import Interline.Proofs.LastTokens
import Interline.Proofs.ModelCheck

/-! # Blank lines

A blank line is one that no token touches.  `Linebreaks.count` never looks at lines as such: it goes
from token to token, stops at the first token that starts at the target or behind it, and compares
the ends of each gap.  Where lines go on with the tokens, this decides which lines are blank
(`Linebreaks.count_blank_lines`).

* Lines that are in order from each token to the next are in order throughout
  (`TokenStore.Lined.of_chain`).
* A gap between consecutive tokens leaves a line free exactly if some line between the ends of the
  range is blank (`TokenStore.Lined.exists_leavesLine_iff`).
* The ends of statements are tokens of the store (`SourceModel.exists_token_of_lastToken`). -/

namespace Interline

/-- Whether some part of a token is on a line. -/
def Token.Touches (t : Token) (line : Nat) : Prop :=
  t.span.startPos.line ≤ line ∧ line ≤ t.span.stopPos.line

namespace TokenStore

variable {s : TokenStore}

/-- Whether no token is on a line, comments included. -/
def IsBlank (s : TokenStore) (line : Nat) : Prop := ∀ t ∈ s.toList, ¬t.Touches line

/-! ### Gaps and lines -/

theorem Lined.of_chain (hwithin : ∀ t ∈ s.toList, t.span.startPos.line ≤ t.span.stopPos.line)
    (hnext : s.toList.IsChain fun a b => a.span.stopPos.line ≤ b.span.startPos.line) :
    s.Lined where
  within ht := hwithin _ (List.mem_of_getElem? ht)
  across := by
    intro i j a b hij ha hb
    induction j, hij using Nat.le_induction generalizing b with
    | base =>
        obtain ⟨_, rfl⟩ := List.getElem?_eq_some_iff.1 ha
        obtain ⟨hj, rfl⟩ := List.getElem?_eq_some_iff.1 hb
        exact List.isChain_iff_getElem.1 hnext i hj
    | succ j hij ih =>
        obtain ⟨hj, rfl⟩ := List.getElem?_eq_some_iff.1 hb
        have hc : s.get? j = some s.toList[j] := List.getElem?_eq_getElem (by omega)
        have hstop := hwithin _ (List.mem_of_getElem? hc)
        have hstep := List.isChain_iff_getElem.1 hnext j hj
        exact (ih hc).trans (hstop.trans hstep)

namespace Lined

variable (hl : s.Lined) {i f line : Nat} {last first : Token} (hi : s.get? i = some last)
  (hf : s.get? f = some first)
include hl

theorem isBlank_of_gap {j : Nat} {a b : Token} (ha : s.get? j = some a)
    (hb : s.get? (j + 1) = some b) (hfront : a.span.stopPos.line < line)
    (hback : line < b.span.startPos.line) : s.IsBlank line := by
  rintro t ht ⟨hstart, hstop⟩
  obtain ⟨k, hk⟩ := List.getElem?_of_mem ht
  rcases Nat.lt_or_ge j k with hjk | hkj
  · have := hl.start_le hjk hb hk
    omega
  · have := hl.stop_le hkj hk ha
    omega

include hf

omit hl in
/-- From a token that ends in front of a blank line, going on leads to a gap around the line. -/
theorem exists_leavesLine_of_isBlank (hblank : s.IsBlank line)
    (hback : line < first.span.startPos.line) :
    ∀ {i : Nat} {last : Token}, i < f → s.get? i = some last → last.span.stopPos.line < line →
      ∃ j, i ≤ j ∧ j < f ∧ s.LeavesLine j := by
  intro i
  induction h : f - i using Nat.strong_induction_on generalizing i with
  | _ n ih =>
      intro last hif hi hfront
      have hsize := get?_lt hf
      obtain ⟨b, hb⟩ := get?_isSome (s := s) (i := i + 1) (by omega)
      by_cases hgap : line < b.span.startPos.line
      · exact ⟨i, Nat.le_refl i, hif, last, b, hi, hb, by omega⟩
      · -- The next token has started by the line, so it has ended in front of it.
        have hstop : b.span.stopPos.line < line := by
          have := hblank b (List.mem_of_getElem? hb)
          unfold Token.Touches at this
          omega
        have hnext : i + 1 < f := by
          refine Nat.lt_of_le_of_ne hif fun e => ?_
          rw [e, hf] at hb
          cases hb
          exact hgap hback
        obtain ⟨j, hij, hjf, hj⟩ := ih (f - (i + 1)) (by omega) rfl hnext hb hstop
        exact ⟨j, by omega, hjf, hj⟩

include hi

theorem exists_leavesLine_iff (hif : i < f) :
    (∃ j, i ≤ j ∧ j < f ∧ s.LeavesLine j) ↔
      ∃ line, last.span.stopPos.line < line ∧ line < first.span.startPos.line ∧
        s.IsBlank line := by
  constructor
  · rintro ⟨j, hij, hjf, a, b, ha, hb, hgap⟩
    have hfront := hl.stop_le hij hi ha
    have hback := hl.start_le hjf hb hf
    exact ⟨a.span.stopPos.line + 1, by omega, by omega,
      hl.isBlank_of_gap ha hb (Nat.lt_succ_self _) (by omega)⟩
  · rintro ⟨line, hfront, hback, hblank⟩
    exact exists_leavesLine_of_isBlank hf hblank hback hif hi hfront

end Lined

/-! ### Ends of statements -/

theorem exists_of_firstIn {span : Span} {i : Nat} (h : s.firstIn span = some i) :
    ∃ t, s.get? i = some t := by
  obtain ⟨k, hk, rfl⟩ := Option.map_eq_some_iff.1 h
  have hlt := Nat.lt_of_lt_of_le (List.findIdx?_eq_some_iff_getElem.1 hk).1
    (List.takeWhile_sublist _).length_le
  rw [List.length_drop] at hlt
  exact get?_isSome (by unfold size; omega)

theorem exists_of_lastIn {span : Span} {accept : Token → Bool} {i : Nat}
    (h : s.lastIn span accept = some i) : ∃ t, s.get? i = some t := by
  obtain ⟨k, hk, rfl⟩ := Option.map_eq_some_iff.1 h
  have hlt := Nat.lt_of_lt_of_le (List.findIdx?_eq_some_iff_getElem.1 hk).1
    (List.takeWhile_sublist _).length_le
  rw [List.length_reverse] at hlt
  have hreached : (s.toList.takeWhile fun t => decide (t.span.start < span.stop)).length ≤ s.size :=
    (List.takeWhile_sublist _).length_le
  exact get?_isSome (by omega)

end TokenStore

namespace SourceModel

variable {m : SourceModel} {a i : Nat}

theorem exists_token_of_lastToken (h : m.lastToken a = .ok i) : ∃ t, m.token? i = some t := by
  obtain ⟨n, l, ha, hl⟩ := exists_lastIn h
  rcases lastToken_cases ha hl h with ⟨rfl, -⟩ | ⟨-, t, -, -, -, -, -, ht, -⟩
  · exact TokenStore.exists_of_lastIn hl
  · exact ⟨t, ht⟩

end SourceModel

/-! ### The count -/

namespace Linebreaks

/-- **A count decides which lines are blank.**  Let tokens start one behind the other, and lines go
on within each token and from each to the next.  If both ends of a pair of nodes are found, the
count is 0 exactly if the second one starts on a line by which the first one ends; it is 2 exactly
if some line strictly between the two is touched by no token, comments included; and it is 1
exactly if the second one starts further down and all lines between are touched. -/
theorem count_blank_lines {m : SourceModel} (hs : m.tokens.Ascending)
    (hwithin : ∀ t ∈ m.tokens.toList, t.span.startPos.line ≤ t.span.stopPos.line)
    (hnext : m.tokens.toList.IsChain fun a b => a.span.stopPos.line ≤ b.span.startPos.line)
    {a b i f : Nat} (hi : m.lastToken a = .ok i) (hf : m.firstToken b = .ok f) :
    ∃ last first k, m.token? i = some last ∧ m.token? f = some first ∧
      Linebreaks.count m a b = .ok k ∧
      (k = 0 ↔ first.span.startPos.line ≤ last.span.stopPos.line) ∧
      (k = 2 ↔ ∃ line, last.span.stopPos.line < line ∧ line < first.span.startPos.line ∧
        m.tokens.IsBlank line) ∧
      (k = 1 ↔ last.span.stopPos.line < first.span.startPos.line ∧
        ∀ line, last.span.stopPos.line < line → line < first.span.startPos.line →
          ¬m.tokens.IsBlank line) := by
  have hl := TokenStore.Lined.of_chain hwithin hnext
  obtain ⟨last, hlast⟩ := SourceModel.exists_token_of_lastToken hi
  obtain ⟨_, -, hfound⟩ := SourceModel.exists_firstIn hf
  obtain ⟨first, hfirst⟩ := TokenStore.exists_of_firstIn hfound
  have hcount := count_eq hi hf
  have hone := one_le_betweenTokens_iff hlast hfirst
  have hle := betweenTokens_le_two m.tokens i f
  have htwo : 2 ≤ betweenTokens m.tokens i f ↔ ∃ line, last.span.stopPos.line < line ∧
      line < first.span.startPos.line ∧ m.tokens.IsBlank line := by
    rcases Nat.lt_or_ge i f with hif | hfi
    · rw [two_le_betweenTokens_iff hs hl hlast hfirst hif,
        hl.exists_leavesLine_iff hlast hfirst hif]
    · -- The second node starts no later than the first one ends, so nothing is between them.
      have hstart := hl.start_le hfi hfirst hlast
      have hstop := hl.within hlast
      constructor
      · omega
      · rintro ⟨line, hfront, hback, -⟩
        omega
  generalize betweenTokens m.tokens i f = k at hcount hone hle htwo
  have hexact : k = 2 ↔ 2 ≤ k := by omega
  have hbetween : k = 1 ↔ 1 ≤ k ∧ ¬2 ≤ k := by omega
  refine ⟨last, first, k, hlast, hfirst, hcount, by omega, hexact.trans htwo, ?_⟩
  rw [hbetween, hone, htwo]
  simp only [not_exists, not_and]

/-- A semicolon that guards the last line, below comments and a blank line. -/
def commentedGap : SourceModel :=
  .ofOffsets "a()\n/*\n*/ // b\n\n;[c]"
    [⟨.identifier, 0, 1, none⟩, ⟨.punctuator, 1, 2, none⟩, ⟨.punctuator, 2, 3, none⟩,
      ⟨.blockComment, 4, 9, none⟩, ⟨.lineComment, 10, 14, none⟩, ⟨.punctuator, 16, 17, none⟩,
      ⟨.punctuator, 17, 18, none⟩, ⟨.identifier, 18, 19, none⟩, ⟨.punctuator, 19, 20, none⟩]
    [⟨0, .statement (.expression false), 0, 17⟩, ⟨0, .statement (.expression false), 17, 20⟩]
    (by decide)

theorem count_blank_lines_commentedGap :
    commentedGap.tokens.Ascending ∧
    (∀ t ∈ commentedGap.tokens.toList, t.span.startPos.line ≤ t.span.stopPos.line) ∧
    (commentedGap.tokens.toList.IsChain fun a b => a.span.stopPos.line ≤ b.span.startPos.line) ∧
    commentedGap.lastToken 1 = .ok 2 ∧ commentedGap.firstToken 2 = .ok 6 ∧
    commentedGap.tokens.IsBlank 4 ∧ Linebreaks.count commentedGap 1 2 = .ok 2 := by
  have hs : commentedGap.tokens.Ascending := by
    unfold TokenStore.Ascending
    decide +kernel
  have hwithin : ∀ t ∈ commentedGap.tokens.toList,
      t.span.startPos.line ≤ t.span.stopPos.line := by decide +kernel
  have hnext : commentedGap.tokens.toList.IsChain fun a b =>
      a.span.stopPos.line ≤ b.span.startPos.line := by decide +kernel
  have hi : commentedGap.lastToken 1 = .ok 2 := by cbv
  have hf : commentedGap.firstToken 2 = .ok 6 := by cbv
  have hblank : commentedGap.tokens.IsBlank 4 := by
    unfold TokenStore.IsBlank Token.Touches
    decide +kernel
  obtain ⟨last, first, k, hlast, hfirst, hcount, -, htwo, -⟩ :=
    count_blank_lines hs hwithin hnext hi hf
  have hk : k = 2 := by
    cases hlast
    cases hfirst
    exact htwo.2 ⟨4, by decide +kernel, by decide +kernel, hblank⟩
  rw [hk] at hcount
  exact ⟨hs, hwithin, hnext, hi, hf, hblank, hcount⟩

end Linebreaks

end Interline
