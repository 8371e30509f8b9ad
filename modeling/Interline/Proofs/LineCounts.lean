import Mathlib
import Interline.Linebreaks
import Interline.Proofs.TokenSearch

/-! # What a count of line breaks says

`Linebreaks.betweenTokens` walks over the tokens between two statements and may stop on its way.
Where lines go on with the tokens (`TokenStore.Lined`), its answer depends on two facts only:
whether the two tokens share a line (`one_le_betweenTokens_iff`), and whether some gap between
consecutive tokens leaves a line free (`two_le_betweenTokens_iff`). -/

namespace Interline.TokenStore

variable {s : TokenStore}

/-- No token starts on a line before one on which it, or a token in front of it, has ended. -/
structure Lined (s : TokenStore) : Prop where
  within : ∀ {i : Nat} {t : Token}, s.get? i = some t → t.span.startPos.line ≤ t.span.stopPos.line
  across : ∀ {i j : Nat} {a b : Token}, i < j → s.get? i = some a → s.get? j = some b →
    a.span.stopPos.line ≤ b.span.startPos.line

/-- Whether a line is free between a token and the next one. -/
def LeavesLine (s : TokenStore) (j : Nat) : Prop :=
  ∃ a b, s.get? j = some a ∧ s.get? (j + 1) = some b ∧
    a.span.stopPos.line + 2 ≤ b.span.startPos.line

theorem leavesLine_iff {j : Nat} {a b : Token} (ha : s.get? j = some a)
    (hb : s.get? (j + 1) = some b) :
    s.LeavesLine j ↔ 2 ≤ b.span.startPos.line - a.span.stopPos.line := by
  unfold LeavesLine
  rw [ha, hb]
  constructor
  · rintro ⟨a', b', ea, eb, hgap⟩
    cases ea
    cases eb
    omega
  · intro hgap
    exact ⟨a, b, rfl, rfl, by omega⟩

namespace Lined

variable (hl : s.Lined)
include hl

theorem start_le {i j : Nat} {a b : Token} (hij : i ≤ j) (ha : s.get? i = some a)
    (hb : s.get? j = some b) : a.span.startPos.line ≤ b.span.startPos.line := by
  rcases Nat.lt_or_eq_of_le hij with h | rfl
  · exact Nat.le_trans (hl.within ha) (hl.across h ha hb)
  · rw [ha] at hb
    cases hb
    exact Nat.le_refl _

theorem stop_le {i j : Nat} {a b : Token} (hij : i ≤ j) (ha : s.get? i = some a)
    (hb : s.get? j = some b) : a.span.stopPos.line ≤ b.span.stopPos.line := by
  rcases Nat.lt_or_eq_of_le hij with h | rfl
  · exact Nat.le_trans (hl.across h ha hb) (hl.within hb)
  · rw [ha] at hb
    cases hb
    exact Nat.le_refl _

end Lined

theorem after_true {i : Nat} (h : i + 1 < s.size) : s.after i true = some (i + 1) := by
  obtain ⟨t, ht⟩ := get?_isSome h
  rw [after_eq_some_iff]
  exact ⟨⟨by omega, t, ht, rfl⟩, fun k hk _ => by omega⟩

end Interline.TokenStore

namespace Interline.Linebreaks

open TokenStore

variable {s : TokenStore}

/-- The walk finds a free line in front of the token that it is to reach, if there is one. -/
theorem hasBlankLine_iff (hs : s.Ascending) {f : Nat} {first : Token} (hf : s.get? f = some first) :
    ∀ {i : Nat}, i < f → (hasBlankLine s first.span.start i = true ↔
      ∃ j, i ≤ j ∧ j < f ∧ s.LeavesLine j) := by
  intro i
  induction h : f - i using Nat.strong_induction_on generalizing i with
  | _ n ih =>
      intro hi
      have hsize := get?_lt hf
      obtain ⟨a, ha⟩ := get?_isSome (s := s) (i := i) (by omega)
      obtain ⟨b, hb⟩ := get?_isSome (s := s) (i := i + 1) (by omega)
      have here := leavesLine_iff ha hb
      rw [hasBlankLine, after_true (by omega)]
      simp only [ha, hb]
      by_cases hgap : 2 ≤ b.span.startPos.line - a.span.stopPos.line
      · simp only [hgap, if_true, true_iff]
        exact ⟨i, Nat.le_refl i, hi, here.2 hgap⟩
      rw [if_neg hgap]
      by_cases hreach : first.span.start ≤ b.span.start
      · -- The token in front of the target has been looked at last.
        have hlast : f = i + 1 := by
          by_contra hne
          have := hs.start_lt (i := i + 1) (j := f) (by omega) hb hf
          omega
        simp only [hreach, if_true, Bool.false_eq_true, false_iff, not_exists, not_and]
        intro j hij hjf
        obtain rfl : j = i := by omega
        exact fun h => hgap (here.1 h)
      · have hif : i + 1 < f := by
          by_contra hge
          obtain rfl : f = i + 1 := by omega
          rw [hf] at hb
          cases hb
          omega
        rw [if_neg hreach, ih (f - (i + 1)) (by omega) rfl hif]
        constructor
        · rintro ⟨j, hij, hjf, hj⟩
          exact ⟨j, by omega, hjf, hj⟩
        · rintro ⟨j, hij, hjf, hj⟩
          have hne : j ≠ i := by
            rintro rfl
            exact hgap (here.1 hj)
          exact ⟨j, by omega, hjf, hj⟩

theorem betweenTokens_le_two (s : TokenStore) (i f : Nat) : betweenTokens s i f ≤ 2 := by
  unfold betweenTokens
  repeat' split
  all_goals omega

theorem one_le_betweenTokens_iff {i f : Nat} {last first : Token} (hi : s.get? i = some last)
    (hf : s.get? f = some first) :
    1 ≤ betweenTokens s i f ↔ last.span.stopPos.line < first.span.startPos.line := by
  unfold betweenTokens
  rw [hi, hf]
  simp only
  split
  next h => omega
  next h =>
    split
    next => omega
    next => split <;> omega

/-- Two line breaks are counted where some line is free. -/
theorem two_le_betweenTokens_iff (hs : s.Ascending) (hl : s.Lined) {i f : Nat}
    {last first : Token} (hi : s.get? i = some last) (hf : s.get? f = some first) (hif : i < f) :
    2 ≤ betweenTokens s i f ↔ ∃ j, i ≤ j ∧ j < f ∧ s.LeavesLine j := by
  have wide : (∃ j, i ≤ j ∧ j < f ∧ s.LeavesLine j) →
      last.span.stopPos.line + 2 ≤ first.span.startPos.line := by
    rintro ⟨j, hij, hjf, a, b, ha, hb, hgap⟩
    have := hl.stop_le hij hi ha
    have := hl.start_le hjf hb hf
    omega
  rw [← hasBlankLine_iff hs hf hif] at wide ⊢
  unfold betweenTokens
  rw [hi, hf]
  simp only
  split
  next h =>
    constructor
    · omega
    · intro hb
      have := wide hb
      omega
  next h =>
    split
    next h₁ =>
      constructor
      · omega
      · intro hb
        have := wide hb
        omega
    next h₁ =>
      cases hasBlankLine s first.span.start i <;> simp

end Interline.Linebreaks
