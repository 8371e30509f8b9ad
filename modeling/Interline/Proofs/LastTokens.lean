import Mathlib
import Interline.Proofs.Coherence

/-! # Where statements end

In code without semicolons, a semicolon that guards the next statement is no part of the line of its
own one, and `SourceModel.lastToken` passes over it.  `SourceModel.Guards` spells out when
(`isLeadingSemicolon_eq_some_iff`).

The two readings do not get in each other's way.  The token that a guarding semicolon hands over to
ends no other statement on the line of what follows it (`lines_of_common_end`), and the semicolon
itself ends none at all (`lastToken_ne_of_guards`). -/

namespace Interline

theorem Token.not_isComment_of_isSemicolon {t : Token} (h : t.isSemicolon = true) :
    t.isComment = false := by
  simp only [isSemicolon, Bool.and_eq_true, beq_iff_eq] at h
  simp [isComment, h.1, TokenKind.isComment]

/-! ### Neighbours among the tokens -/

namespace TokenStore

variable {s : TokenStore}

theorem after_of_before {i j f : Nat} (hb : s.before j false = some i) (hj : s.CountsAt false j)
    (ha : s.after i false = some f) : f = j := by
  obtain ⟨⟨hij, -⟩, hmax⟩ := before_eq_some_iff.1 hb
  obtain ⟨⟨hif, hf⟩, hmin⟩ := after_eq_some_iff.1 ha
  have := hmin j hij hj
  by_contra hne
  have := hmax f (by omega) hf
  omega

theorem before_inj {i j k : Nat} (hj : s.before j false = some i) (hk : s.before k false = some i)
    (hcj : s.CountsAt false j) (hck : s.CountsAt false k) : j = k := by
  obtain ⟨⟨hij, -⟩, hmaxj⟩ := before_eq_some_iff.1 hj
  obtain ⟨⟨hik, -⟩, hmaxk⟩ := before_eq_some_iff.1 hk
  rcases Nat.lt_trichotomy j k with h | h | h
  · have := hmaxk j h hcj
    omega
  · exact h
  · have := hmaxj k h hck
    omega

end TokenStore

namespace SourceModel

variable {m : SourceModel}

/-- Whether the token `l` is a semicolon of a node that guards what follows on its line: `i` is the
code in front of it, in the node but on another line. -/
def Guards (m : SourceModel) (n : Node) (l i : Nat) : Prop :=
  ∃ semicolon previous f next, m.token? l = some semicolon ∧ semicolon.isSemicolon = true ∧
    m.tokens.before l false = some i ∧ m.token? i = some previous ∧
    m.tokens.after l false = some f ∧ m.token? f = some next ∧
    n.span.start ≤ previous.span.start ∧
    semicolon.span.startPos.line ≠ previous.span.stopPos.line ∧
    semicolon.span.stopPos.line = next.span.startPos.line

theorem isLeadingSemicolon_eq_some_iff {n : Node} {l i : Nat} :
    m.isLeadingSemicolon n l = some i ↔ m.Guards n l i := by
  unfold isLeadingSemicolon Guards
  simp only [Option.bind_eq_bind, Option.bind_eq_some_iff, guard, pure, failure,
    Option.ite_none_right_eq_some, Option.some.injEq, exists_and_left, and_true, exists_const]
  constructor
  · rintro ⟨s, hs, hsemi, j, hj, t, ht, f, hf, u, hu, hin, hne, heq, rfl⟩
    exact ⟨s, hs, hsemi, hj, t, ht, f, hf, u, hu, hin, hne, heq⟩
  · rintro ⟨s, hs, hsemi, hj, t, ht, f, hf, u, hu, hin, hne, heq⟩
    exact ⟨s, hs, hsemi, i, hj, t, ht, f, hf, u, hu, hin, hne, heq, rfl⟩

/-- A guard, told by the tokens on both sides of it. -/
theorem guards_iff {n : Node} {l j f : Nat} {s t u : Token}
    (hl : m.token? l = some s) (hj : m.token? j = some t) (hf : m.token? f = some u)
    (haft : m.tokens.after l false = some f) :
    m.Guards n l j ↔ s.isSemicolon = true ∧ m.tokens.before l false = some j ∧
      n.span.start ≤ t.span.start ∧ s.span.startPos.line ≠ t.span.stopPos.line ∧
      s.span.stopPos.line = u.span.startPos.line := by
  constructor
  · rintro ⟨s', t', f', u', hs', hsemi, hbef, ht', haft', hu', hin, hne, heq⟩
    rw [hl] at hs'
    rw [hj] at ht'
    rw [haft] at haft'
    cases hs'
    cases ht'
    cases haft'
    rw [hf] at hu'
    cases hu'
    exact ⟨hsemi, hbef, hin, hne, heq⟩
  · rintro ⟨hsemi, hbef, hin, hne, heq⟩
    exact ⟨s, t, f, u, hl, hsemi, hbef, hj, haft, hf, hin, hne, heq⟩

theorem lastToken_of_not_guards {a l : Nat} {n : Node} (ha : m.tree.node? a = some n)
    (hl : m.tokens.lastIn n.span (fun _ => true) = some l) (h : ∀ i, ¬m.Guards n l i) :
    m.lastToken a = .ok l := by
  rw [lastToken_eq ha hl]
  cases hg : m.isLeadingSemicolon n l with
  | none => rfl
  | some i => exact absurd (isLeadingSemicolon_eq_some_iff.1 hg) (h i)

theorem lastToken_of_guards {a l i : Nat} {n : Node} (ha : m.tree.node? a = some n)
    (hl : m.tokens.lastIn n.span (fun _ => true) = some l) (h : m.Guards n l i) :
    m.lastToken a = .ok i := by
  rw [lastToken_eq ha hl, isLeadingSemicolon_eq_some_iff.2 h]
  rfl

/-- A statement ends with the last token of its node, or with the one before a guard. -/
theorem lastToken_cases {a l i : Nat} {n : Node} (ha : m.tree.node? a = some n)
    (hl : m.tokens.lastIn n.span (fun _ => true) = some l) (h : m.lastToken a = .ok i) :
    (i = l ∧ ∀ j, ¬m.Guards n l j) ∨ m.Guards n l i := by
  by_cases hg : ∃ j, m.Guards n l j
  · obtain ⟨j, hj⟩ := hg
    rw [lastToken_of_guards ha hl hj] at h
    cases h
    exact .inr hj
  · have hno := not_exists.1 hg
    rw [lastToken_of_not_guards ha hl hno] at h
    cases h
    exact .inl ⟨rfl, hno⟩

theorem lastToken_le {a l i : Nat} {n : Node} (ha : m.tree.node? a = some n)
    (hl : m.tokens.lastIn n.span (fun _ => true) = some l) (h : m.lastToken a = .ok i) : i ≤ l := by
  rcases lastToken_cases ha hl h with ⟨rfl, -⟩ | ⟨-, -, -, -, -, -, hbef, -⟩
  · exact Nat.le_refl i
  · exact Nat.le_of_lt (TokenStore.before_eq_some_iff.1 hbef).1.1

theorem Guards.countsAt {n : Node} {l i : Nat} (h : m.Guards n l i) :
    m.tokens.CountsAt false l := by
  obtain ⟨s, -, -, -, hs, hsemi, -⟩ := h
  exact ⟨s, hs, by simp [TokenStore.counts, Token.not_isComment_of_isSemicolon hsemi]⟩

theorem countsAt_of_lastIn (hs : m.tokens.Separate) {n : Node} {l : Nat}
    (h : m.tokens.lastIn n.span (fun _ => true) = some l) : m.tokens.CountsAt false l := by
  obtain ⟨⟨t, ht, -, hcode, -⟩, -⟩ := (TokenStore.lastIn_eq_some_iff hs).1 h
  exact ⟨t, ht, by simp [TokenStore.counts, hcode]⟩

theorem countsAt_of_lastToken (hs : m.tokens.Separate) {a i : Nat} (h : m.lastToken a = .ok i) :
    m.tokens.CountsAt false i := by
  obtain ⟨n, l, ha, hl⟩ := exists_lastIn h
  rcases lastToken_cases ha hl h with ⟨rfl, -⟩ | ⟨-, -, -, -, -, -, hbef, -⟩
  · exact countsAt_of_lastIn hs hl
  · exact (TokenStore.before_eq_some_iff.1 hbef).1.2

theorem lastToken_lt_firstToken (hl : m.tree.Linked) (hn : m.tree.Nested) (hs : m.tokens.Separate)
    {a b i f : Nat} (hab : m.tree.Adjacent a b) (hi : m.lastToken a = .ok i)
    (hf : m.firstToken b = .ok f) : i < f := by
  obtain ⟨before, l, ha, hlast⟩ := exists_lastIn hi
  obtain ⟨after, hb, hfirst⟩ := exists_firstIn hf
  obtain ⟨before', after', ha', hb', hle⟩ := hn.exists_nodes hl hab
  cases ha.symm.trans ha'
  cases hb.symm.trans hb'
  exact Nat.lt_of_le_of_lt (lastToken_le ha hlast hi) (hs.lastIn_lt_firstIn hle hlast hfirst)

/-! ### Statements that end together -/

namespace Coherent

variable (hm : m.Coherent NodeKind.isListItem) (hc : m.CommentsBetween) {a b c d : Nat}
  (hab : m.tree.Adjacent a b) (hcd : m.tree.Adjacent c d)
include hm hab

theorem lastToken_lt {i f : Nat} (hi : m.lastToken a = .ok i) (hf : m.firstToken b = .ok f) :
    i < f ∧ m.tokens.CountsAt false i :=
  ⟨lastToken_lt_firstToken hm.grown.linked hm.nested hm.placed.separate hab hi hf,
    countsAt_of_lastToken hm.placed.separate hi⟩

include hcd

theorem lastToken_ne_of_guards {n : Node} {l j : Nat} (ha : m.tree.node? a = some n)
    (hl : m.tokens.lastIn n.span (fun _ => true) = some l) (hg : m.Guards n l j) :
    m.lastToken c ≠ .ok l := by
  intro hcl
  obtain ⟨before, lc, hnc, hlc⟩ := exists_lastIn hcl
  rcases lastToken_cases hnc hlc hcl with ⟨rfl, hno⟩ | hgc
  · -- The node that ends with the semicolon is the one that we have come from.
    obtain rfl := hm.eq_of_lastIn hab hcd ha hnc hl hlc
    rw [ha] at hnc
    cases hnc
    exact hno j hg
  · -- The semicolon is passed over for another one, which stands on another line.
    obtain ⟨s, t, f₁, u, hs, -, -, -, haf, hu, -, -, heq⟩ := hg
    obtain ⟨s', t', -, -, hs', -, hbef, ht', -, -, -, hne, -⟩ := id hgc
    obtain rfl := TokenStore.after_of_before hbef hgc.countsAt haf
    rw [hs] at ht'
    cases ht'
    rw [hu] at hs'
    cases hs'
    exact hne heq.symm

include hc

/-- Where two statements end with one token, their neighbours start on later lines. -/
theorem lines_of_common_end (hne : a ≠ c) {i f : Nat} {t u : Token} (hai : m.lastToken a = .ok i)
    (hci : m.lastToken c = .ok i) (hf : m.firstToken d = .ok f) (ht : m.token? i = some t)
    (hu : m.token? f = some u) : t.span.stopPos.line < u.span.startPos.line := by
  have hs := hm.placed.separate
  have hlined := hm.placed.lined
  obtain ⟨na, la, hna, hla⟩ := exists_lastIn hai
  obtain ⟨nc, lc, hnc, hlc⟩ := exists_lastIn hci
  obtain ⟨nd, hnd, hf⟩ := exists_firstIn hf
  have hlt := hm.lastIn_lt_firstIn hcd hnc hnd hlc hf
  rcases lastToken_cases hna hla hai with ⟨rfl, -⟩ | hga
  · rcases lastToken_cases hnc hlc hci with ⟨rfl, -⟩ | hgc
    · exact absurd (hm.eq_of_lastIn hab hcd hna hnc hla hlc) hne
    · obtain ⟨s, t', -, -, hs', -, hbef, ht', -, -, -, hline, -⟩ := hgc
      rw [ht] at ht'
      cases ht'
      have := hlined.across (TokenStore.before_eq_some_iff.1 hbef).1.1 ht hs'
      have := hlined.start_le (Nat.le_of_lt hlt) hs' hu
      omega
  · rcases lastToken_cases hnc hlc hci with ⟨rfl, -⟩ | hgc
    · obtain ⟨s, t', -, -, hs', -, hbef, ht', -, -, -, hline, -⟩ := id hga
      have haf := hm.after_lastIn hc hcd hnc hnd hlc hf
      obtain rfl := TokenStore.after_of_before hbef hga.countsAt haf
      rw [ht] at ht'
      cases ht'
      rw [hu] at hs'
      cases hs'
      have := hlined.across hlt ht hu
      omega
    · obtain ⟨-, -, -, -, -, -, hba, -⟩ := id hga
      obtain ⟨-, -, -, -, -, -, hbc, -⟩ := id hgc
      obtain rfl := TokenStore.before_inj hba hbc hga.countsAt hgc.countsAt
      exact absurd (hm.eq_of_lastIn hab hcd hna hnc hla hlc) hne

end Coherent

end SourceModel

end Interline
