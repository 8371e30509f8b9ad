import Mathlib
import Interline.Proofs.CheckedPairs
import Interline.Proofs.ExhaustiveSearch
import Interline.Proofs.LineCounts
import Interline.Proofs.TextPlaces

/-! # Coherent models

A source model need not fit its text.  `SourceModel.Coherent` says that it does: tokens are apart
and stand where their positions say (`Placed`), spans nest as the nodes do (`Nested`), and nodes of
a given sort cut no token and have code (`Covered`).

In a coherent model whose items are of that sort

* two nodes are nested or apart (`Coherent.nested_or_apart`);
* different neighbours do not end with the same token (`Coherent.eq_of_lastIn`);
* behind the last token of a statement, code goes on with the first token of its neighbour
  (`Coherent.after_lastIn`);
* every pair of neighbours can be judged (`Covered.exists_judge`). -/

namespace Interline

/-! ### Coherence -/

/-- Spans nest as the nodes do, and those of siblings follow each other. -/
structure SyntaxTree.Nested (t : SyntaxTree) : Prop where
  within : ∀ {a c : Nat} {n k : Node}, t.IsChild a c → t.node? a = some n → t.node? c = some k →
    n.span.contains k.span = true
  apart : ∀ {a : Nat} {n : Node}, t.node? a = some n → n.children.Pairwise fun c d =>
    ∀ k l : Node, t.node? c = some k → t.node? d = some l → k.span.stop ≤ l.span.start

/-- Whether a place is inside a token. -/
def Token.IsCutAt (t : Token) (place : Nat) : Prop := t.span.start < place ∧ place < t.span.stop

namespace SourceModel

/-- Tokens do not overlap, and their positions are those of their offsets in the text. -/
structure Placed (m : SourceModel) : Prop where
  separate : m.tokens.Separate
  start : ∀ {i : Nat} {t : Token}, m.token? i = some t →
    Text.positionAt? m.text.toList t.span.start = some t.span.startPos
  stop : ∀ {i : Nat} {t : Token}, m.token? i = some t →
    Text.positionAt? m.text.toList t.span.stop = some t.span.stopPos

/-- Nodes of a sort begin and end between tokens, and there is code in them. -/
structure Covered (m : SourceModel) (sort : NodeKind → Bool) : Prop where
  intact : ∀ {a i : Nat} {n : Node} {t : Token}, m.tree.node? a = some n → sort n.kind = true →
    m.token? i = some t → ¬t.IsCutAt n.span.start ∧ ¬t.IsCutAt n.span.stop
  code : ∀ {a : Nat} {n : Node}, m.tree.node? a = some n → sort n.kind = true →
    ∃ i, m.tokens.CodeIn n.span (fun _ => true) i

/-- The model of a text, as far as nodes of a sort are concerned. -/
structure Coherent (m : SourceModel) (sort : NodeKind → Bool) : Prop where
  grown : m.tree.Grown
  placed : m.Placed
  nested : m.tree.Nested
  covered : m.Covered sort

/-- Every label stands before a statement. -/
def LabelsHold (m : SourceModel) : Prop :=
  ∀ {a : Nat} {n : Node}, m.tree.node? a = some n → n.kind = .statement .labeled →
    ∃ c ∈ n.children, m.tree.isStatement c = true

/-- Between neighbours of a list there are only comments. -/
def CommentsBetween (m : SourceModel) : Prop :=
  ∀ {p n i : Nat} {before after : Node} {t : Token}, m.tree.Adjacent p n →
    m.tree.node? p = some before → m.tree.node? n = some after → m.token? i = some t →
    before.span.stop ≤ t.span.start → t.span.stop ≤ after.span.start → t.isComment = true

/-- Whether a byte of the text is part of a token. -/
def Covers (m : SourceModel) (n : Nat) : Prop :=
  ∃ i t, m.token? i = some t ∧ t.span.start ≤ n ∧ n < t.span.stop

/-- What is outside of the tokens is white. -/
def Spaced (m : SourceModel) (white : Char → Bool) : Prop :=
  ∀ {n : Nat} {c : Char}, Text.charAt? m.text.toList n = some c → white c = true ∨ m.Covers n

end SourceModel

/-! ### Spans -/

section spans

variable {t : SyntaxTree}

theorem Span.contains_trans {a b c : Span} (hab : a.contains b = true) (hbc : b.contains c = true) :
    a.contains c = true := by
  rw [TokenStore.contains_iff] at hab hbc ⊢
  omega

theorem SyntaxTree.Nested.contains (hn : t.Nested) {a d : Nat} (h : t.Below a d) :
    ∀ {n k : Node}, t.node? a = some n → t.node? d = some k → n.span.contains k.span = true := by
  induction h with
  | refl =>
      intro n k ha hd
      rw [ha] at hd
      cases hd
      exact TokenStore.contains_iff.2 ⟨Nat.le_refl _, Nat.le_refl _⟩
  | tail _ hc ih =>
      intro n k ha hd
      obtain ⟨b, hb, -⟩ := id hc
      exact Span.contains_trans (ih ha hb) (hn.within hc hb hd)

theorem SyntaxTree.Nested.stop_le_start (hn : t.Nested) (hl : t.Linked) {a c d : Nat} {k l : Node}
    (hc : t.IsChild a c) (hd : t.IsChild a d) (hlt : c < d) (hk : t.node? c = some k)
    (hl' : t.node? d = some l) : k.span.stop ≤ l.span.start := by
  obtain ⟨n, ha, hcm⟩ := hc
  obtain ⟨n', ha', hdm⟩ := hd
  rw [ha] at ha'
  cases ha'
  obtain ⟨i, hi, rfl⟩ := List.mem_iff_getElem.1 hcm
  obtain ⟨j, hj, rfl⟩ := List.mem_iff_getElem.1 hdm
  have hij : i < j := by
    rcases Nat.lt_trichotomy i j with h | rfl | h
    · exact h
    · omega
    · have := List.pairwise_iff_getElem.1 (hl.sorted ha) j i hj hi h
      omega
  exact List.pairwise_iff_getElem.1 (hn.apart ha) i j hi hj hij k l hk hl'

/-- A span that has width is in one child of a node at most. -/
theorem SyntaxTree.Nested.eq_of_contains (hn : t.Nested) (hl : t.Linked) {inner : Span}
    (hinner : inner.start < inner.stop) {a c d : Nat} {k l : Node} (hac : t.IsChild a c)
    (had : t.IsChild a d) (hc : t.node? c = some k) (hd : t.node? d = some l)
    (hk : k.span.contains inner = true) (hl' : l.span.contains inner = true) : c = d := by
  rw [TokenStore.contains_iff] at hk hl'
  rcases Nat.lt_trichotomy c d with hlt | heq | hlt
  · have := hn.stop_le_start hl hac had hlt hc hd
    omega
  · exact heq
  · have := hn.stop_le_start hl had hac hlt hd hc
    omega

/-- Two nodes are nested, or one ends before the other starts. -/
theorem SyntaxTree.Nested.below_or_apart (hn : t.Nested) (hl : t.Linked) {p q : Nat} {k l : Node}
    (hp : t.node? p = some k) (hq : t.node? q = some l) :
    ∀ {a : Nat}, t.Below a p → t.Below a q →
      t.Below p q ∨ t.Below q p ∨ k.span.stop ≤ l.span.start ∨ l.span.stop ≤ k.span.start := by
  intro a
  induction h : t.size - a using Nat.strong_induction_on generalizing a with
  | _ s ih =>
      intro hap haq
      rcases hap.cases_child with rfl | ⟨c, hac, hcp⟩
      · exact .inl haq
      rcases haq.cases_child with rfl | ⟨d, had, hdq⟩
      · exact .inr (.inl hap)
      obtain ⟨kc, hkc⟩ := SyntaxTree.node?_isSome hac.lt.2
      obtain ⟨kd, hkd⟩ := SyntaxTree.node?_isSome had.lt.2
      obtain ⟨hc₁, hc₂⟩ := TokenStore.contains_iff.1 (hn.contains hcp hkc hp)
      obtain ⟨hd₁, hd₂⟩ := TokenStore.contains_iff.1 (hn.contains hdq hkd hq)
      rcases Nat.lt_trichotomy c d with hlt | rfl | hlt
      · have := hn.stop_le_start hl hac had hlt hkc hkd
        exact .inr (.inr (.inl (by omega)))
      · have := hac.lt
        exact ih (t.size - c) (by omega) rfl hcp hdq
      · have := hn.stop_le_start hl had hac hlt hkd hkc
        exact .inr (.inr (.inr (by omega)))

end spans

/-! ### Tokens at the ends of statements -/

theorem SyntaxTree.node?_of_isItem {t : SyntaxTree} {a : Nat} (h : t.isItem a = true) :
    ∃ n, t.node? a = some n ∧ n.kind.isListItem = true :=
  Option.any_eq_true _ _ |>.1 h

theorem SyntaxTree.isListItem_of_isItem {t : SyntaxTree} {a : Nat} {n : Node}
    (h : t.isItem a = true) (hn : t.node? a = some n) : n.kind.isListItem = true := by
  obtain ⟨n', hn', hkind⟩ := node?_of_isItem h
  rw [hn] at hn'
  cases hn'
  exact hkind

theorem SyntaxTree.Adjacent.isItem {t : SyntaxTree} {p n : Nat} (h : t.Adjacent p n) :
    t.isItem p = true ∧ t.isItem n = true := by
  obtain ⟨-, -, -, -, -, -, -, -, hp, hn, -⟩ := h
  exact ⟨hp, hn⟩

theorem SyntaxTree.Adjacent.lt {t : SyntaxTree} (hl : t.Linked) {p n : Nat} (h : t.Adjacent p n) :
    p < n := by
  obtain ⟨q, list, earlier, between, later, hq, -, e, -⟩ := h
  have hs := hl.sorted hq
  rw [e, List.append_assoc, List.pairwise_append] at hs
  exact (List.pairwise_cons.1 hs.2.1).1 n (by simp)

theorem SyntaxTree.Nested.exists_nodes {t : SyntaxTree} (hn : t.Nested) (hl : t.Linked) {p n : Nat}
    (h : t.Adjacent p n) : ∃ before after, t.node? p = some before ∧ t.node? n = some after ∧
      before.span.stop ≤ after.span.start := by
  obtain ⟨before, hp, -⟩ := node?_of_isItem h.isItem.1
  obtain ⟨after, hn', -⟩ := node?_of_isItem h.isItem.2
  obtain ⟨q, hqp, hqn⟩ := h.parent
  exact ⟨before, after, hp, hn', hn.stop_le_start hl hqp hqn (h.lt hl) hp hn'⟩

theorem TokenStore.exists_firstIn {s : TokenStore} (hs : s.Separate) {span : Span} {i : Nat}
    (h : s.CodeIn span (fun _ => true) i) : ∃ f, s.firstIn span = some f :=
  (hs.findsLeast_firstIn span).exists_some h

theorem TokenStore.exists_lastIn {s : TokenStore} (hs : s.Separate) {span : Span}
    {accept : Token → Bool} {i : Nat} (h : s.CodeIn span accept i) :
    ∃ l, s.lastIn span accept = some l :=
  (hs.findsGreatest_lastIn span accept).exists_some h

theorem TokenStore.Separate.lastIn_lt_firstIn {s : TokenStore} (hs : s.Separate) {x y : Span}
    {accept : Token → Bool} {l f : Nat} (hxy : x.stop ≤ y.start) (hl : s.lastIn x accept = some l)
    (hf : s.firstIn y = some f) : l < f := by
  obtain ⟨⟨a, ha, hina, -⟩, -⟩ := (lastIn_eq_some_iff hs).1 hl
  obtain ⟨⟨b, hb, hinb, -⟩, -⟩ := (firstIn_eq_some_iff hs).1 hf
  rw [contains_iff] at hina hinb
  have := hs.width ha
  exact hs.lt_of_start_lt ha hb (by omega)

namespace SourceModel

variable {m : SourceModel} {sort : NodeKind → Bool}

theorem Placed.lined (h : m.Placed) : m.tokens.Lined where
  within ht := Text.line_le_of_positionAt? (h.start ht) (h.stop ht)
    (Nat.le_of_lt (h.separate.width ht))
  across hij ha hb := Text.line_le_of_positionAt? (h.stop ha) (h.start hb)
    (h.separate.apart hij ha hb)

theorem Placed.ascending (h : m.Placed) : m.tokens.Ascending :=
  h.separate.ascending

namespace Covered

variable (hc : m.Covered sort) (hs : m.tokens.Separate) {a : Nat} {n : Node}
  (ha : m.tree.node? a = some n) (hsort : sort n.kind = true)
include hc hs ha hsort

theorem exists_first : ∃ f, m.tokens.firstIn n.span = some f := by
  obtain ⟨i, hi⟩ := hc.code ha hsort
  exact TokenStore.exists_firstIn hs hi

theorem exists_last : ∃ l, m.tokens.lastIn n.span (fun _ => true) = some l := by
  obtain ⟨i, hi⟩ := hc.code ha hsort
  exact TokenStore.exists_lastIn hs hi

end Covered

namespace Coherent

theorem nested_or_apart (hm : m.Coherent sort) {p q : Nat} {k l : Node}
    (hp : m.tree.node? p = some k) (hq : m.tree.node? q = some l) :
    m.tree.Below p q ∨ m.tree.Below q p ∨ k.span.stop ≤ l.span.start ∨
      l.span.stop ≤ k.span.start := by
  have hl := hm.grown.linked
  exact hm.nested.below_or_apart hl hp hq (hl.below_root (SyntaxTree.node?_lt hp))
    (hl.below_root (SyntaxTree.node?_lt hq))

theorem exists_nodes (hm : m.Coherent sort) {p n : Nat} (h : m.tree.Adjacent p n) :
    ∃ before after, m.tree.node? p = some before ∧ m.tree.node? n = some after ∧
      before.span.stop ≤ after.span.start :=
  hm.nested.exists_nodes hm.grown.linked h

section items

variable (hm : m.Coherent NodeKind.isListItem)
include hm

/-- The ends of two neighbours: the nodes, the last token of the first, the first token of the
second, and what lies between. -/
theorem ends {p n : Nat} (h : m.tree.Adjacent p n) :
    ∃ before after l f, m.tree.node? p = some before ∧ m.tree.node? n = some after ∧
      before.kind.isListItem = true ∧ after.kind.isListItem = true ∧
      before.span.stop ≤ after.span.start ∧
      m.tokens.lastIn before.span (fun _ => true) = some l ∧
      m.tokens.firstIn after.span = some f ∧ l < f := by
  obtain ⟨before, after, hp, hn, hle⟩ := hm.exists_nodes h
  have hpi := SyntaxTree.isListItem_of_isItem h.isItem.1 hp
  have hni := SyntaxTree.isListItem_of_isItem h.isItem.2 hn
  obtain ⟨l, hlast⟩ := hm.covered.exists_last hm.placed.separate hp hpi
  obtain ⟨f, hfirst⟩ := hm.covered.exists_first hm.placed.separate hn hni
  exact ⟨before, after, l, f, hp, hn, hpi, hni, hle, hlast, hfirst,
    hm.placed.separate.lastIn_lt_firstIn hle hlast hfirst⟩

theorem lastIn_lt_firstIn {p n l f : Nat} {before after : Node} (h : m.tree.Adjacent p n)
    (hp : m.tree.node? p = some before) (hn : m.tree.node? n = some after)
    (hlast : m.tokens.lastIn before.span (fun _ => true) = some l)
    (hfirst : m.tokens.firstIn after.span = some f) : l < f := by
  obtain ⟨before', after', hp', hn', hle⟩ := hm.exists_nodes h
  cases hp.symm.trans hp'
  cases hn.symm.trans hn'
  exact hm.placed.separate.lastIn_lt_firstIn hle hlast hfirst

theorem after_lastIn (hc : m.CommentsBetween) {p n l f : Nat} {before after : Node}
    (h : m.tree.Adjacent p n) (hp : m.tree.node? p = some before) (hn : m.tree.node? n = some after)
    (hlast : m.tokens.lastIn before.span (fun _ => true) = some l)
    (hfirst : m.tokens.firstIn after.span = some f) : m.tokens.after l false = some f := by
  have hlt := hm.lastIn_lt_firstIn h hp hn hlast hfirst
  have hpi := SyntaxTree.isListItem_of_isItem h.isItem.1 hp
  have hni := SyntaxTree.isListItem_of_isItem h.isItem.2 hn
  have hs := hm.placed.separate
  obtain ⟨⟨a, ha, hina, -⟩, hmax⟩ := (TokenStore.lastIn_eq_some_iff hs).1 hlast
  obtain ⟨⟨b, hb, hinb, hcb, -⟩, hmin⟩ := (TokenStore.firstIn_eq_some_iff hs).1 hfirst
  obtain ⟨ha₁, ha₂⟩ := TokenStore.contains_iff.1 hina
  obtain ⟨hb₁, hb₂⟩ := TokenStore.contains_iff.1 hinb
  refine TokenStore.after_eq_some_iff.2 ⟨⟨hlt, b, hb, by simp [TokenStore.counts, hcb]⟩, ?_⟩
  rintro k hk ⟨t, ht, hct⟩
  by_contra hkf
  have hcode : t.isComment = false := by simpa [TokenStore.counts] using hct
  have hat := hs.apart hk ha ht
  have htb := hs.apart (Nat.lt_of_not_le hkf) ht hb
  have hwt := hs.width ht
  have hwa := hs.width ha
  have hwb := hs.width hb
  -- The token is behind the first statement, or it would be the last one of it.
  have hbehind : before.span.stop ≤ t.span.start := by
    by_contra hin
    have hstop : t.span.stop ≤ before.span.stop := by
      by_contra hout
      exact (hm.covered.intact hp hpi ht).2 ⟨by omega, by omega⟩
    have := hmax k ⟨t, ht, TokenStore.contains_iff.2 ⟨by omega, hstop⟩, hcode, rfl⟩
    omega
  have hfront : t.span.stop ≤ after.span.start := by
    by_contra hin
    have hstart : after.span.start ≤ t.span.start := by
      by_contra hout
      exact (hm.covered.intact hn hni ht).1 ⟨by omega, by omega⟩
    have := hmin k ⟨t, ht, TokenStore.contains_iff.2 ⟨hstart, by omega⟩, hcode, rfl⟩
    omega
  rw [hc h hp hn ht hbehind hfront] at hcode
  cases hcode

/-- A statement below another one ends before it, if it has a neighbour behind it. -/
theorem lastIn_lt {p q n lp lq : Nat} {k l : Node} (hpq : m.tree.Below p q) (hne : p ≠ q)
    (h : m.tree.Adjacent q n) (hp : m.tree.node? p = some k) (hq : m.tree.node? q = some l)
    (hlp : m.tokens.lastIn k.span (fun _ => true) = some lp)
    (hlq : m.tokens.lastIn l.span (fun _ => true) = some lq) : lq < lp := by
  have hl := hm.grown.linked
  obtain ⟨-, after, -, f, -, hn, -, -, -, -, hf, -⟩ := hm.ends h
  have hlt := hm.lastIn_lt_firstIn h hq hn hlq hf
  rcases hpq.cases_parent with rfl | ⟨x, hpx, hxq⟩
  · exact absurd rfl hne
  obtain ⟨y, hyq, hyn⟩ := h.parent
  obtain rfl := hl.parent_unique hxq hyq
  have hin := hm.nested.contains (hpx.trans (.of_isChild hyn)) hp hn
  obtain ⟨⟨b, hb, hinb, hcb, -⟩, -⟩ :=
    (TokenStore.firstIn_eq_some_iff hm.placed.separate).1 hf
  obtain ⟨-, hmax⟩ := (TokenStore.lastIn_eq_some_iff hm.placed.separate).1 hlp
  have hbelow : m.tokens.CodeIn k.span (fun _ => true) f := by
    rw [TokenStore.contains_iff] at hin hinb
    exact ⟨b, hb, TokenStore.contains_iff.2 ⟨by omega, by omega⟩, hcb, rfl⟩
  have := hmax f hbelow
  omega

/-- Different statements with neighbours behind them do not end with one token. -/
theorem eq_of_lastIn {p q n n' i : Nat} {k l : Node} (hpn : m.tree.Adjacent p n)
    (hqn : m.tree.Adjacent q n') (hp : m.tree.node? p = some k) (hq : m.tree.node? q = some l)
    (hlp : m.tokens.lastIn k.span (fun _ => true) = some i)
    (hlq : m.tokens.lastIn l.span (fun _ => true) = some i) : p = q := by
  by_contra hne
  obtain ⟨⟨t, ht, hinp, -⟩, -⟩ := (TokenStore.lastIn_eq_some_iff hm.placed.separate).1 hlp
  obtain ⟨⟨t', ht', hinq, -⟩, -⟩ := (TokenStore.lastIn_eq_some_iff hm.placed.separate).1 hlq
  rw [ht] at ht'
  cases ht'
  have hw := hm.placed.separate.width ht
  rw [TokenStore.contains_iff] at hinp hinq
  rcases hm.nested_or_apart hp hq with h | h | h | h
  · exact absurd (hm.lastIn_lt h hne hqn hp hq hlp hlq) (Nat.lt_irrefl i)
  · exact absurd (hm.lastIn_lt h (fun e => hne e.symm) hpn hq hp hlq hlp) (Nat.lt_irrefl i)
  · omega
  · omega

end items

end Coherent

/-! ### Judgements -/

theorem exists_unwrapLabels (hlab : m.LabelsHold) : ∀ {a : Nat}, a < m.tree.size →
    ∃ u, m.unwrapLabels a = .ok u := by
  intro a ha
  fun_induction unwrapLabels m a with
  | case1 a hn =>
      obtain ⟨n, hn'⟩ := SyntaxTree.node?_isSome ha
      rw [hn] at hn'
      cases hn'
  | case2 a n hn hk hc =>
      obtain ⟨c, hmem, hst⟩ := hlab hn hk
      exact absurd hst (List.find?_eq_none.1 hc c hmem)
  | case3 a n hn hk child hc ih =>
      exact ih (SyntaxTree.child_bounds hn (List.mem_of_find?_eq_some hc)).2
  | case4 a n hn hk => exact ⟨a, rfl⟩

theorem exists_statement (hlab : m.LabelsHold) {a : Nat} (ha : a < m.tree.size) :
    ∃ u k, m.unwrapLabels a = .ok u ∧ m.tree.node? u = some k := by
  obtain ⟨u, hu⟩ := exists_unwrapLabels hlab ha
  obtain ⟨k, hk, -⟩ := node_unwrapLabels hu
  exact ⟨u, k, hu, hk⟩

theorem matches?_eq_ok {u : Nat} {n : Node} (hu : m.tree.node? u = some n) (type : StatementType) :
    type.matches? m u = .ok (type.holdsFor m n) := by
  unfold StatementType.matches?
  rw [node_eq_ok hu]
  rfl

theorem anyM_matches? {u : Nat} {n : Node} (hu : m.tree.node? u = some n) :
    ∀ types : List StatementType, (types.anyM fun type => type.matches? m u) =
      .ok (types.any fun type => type.holdsFor m n)
  | [] => rfl
  | type :: types => by
      rw [List.anyM_cons, matches?_eq_ok hu, anyM_matches? hu types, List.any_cons]
      cases type.holdsFor m n <;> rfl

/-- Whether a rule is about two nodes that stand behind labels. -/
def fits (m : SourceModel) (k l : Node) (r : PolicyRule) : Bool :=
  (r.previous.types.any fun type => type.holdsFor m k) &&
    r.next.types.any fun type => type.holdsFor m l

section pair

variable {a b u v : Nat} {k l : Node} (ha : m.unwrapLabels a = .ok u) (hu : m.tree.node? u = some k)
  (hb : m.unwrapLabels b = .ok v) (hv : m.tree.node? v = some l)
include ha hu

theorem side_matches?_eq (spec : TypeSpec) :
    spec.matches? m a = .ok (spec.types.any fun type => type.holdsFor m k) := by
  unfold TypeSpec.matches?
  rw [ha]
  exact anyM_matches? hu spec.types

include hb hv

theorem rule_matches?_eq (r : PolicyRule) : r.matches? m a b = .ok (m.fits k l r) := by
  unfold PolicyRule.matches? fits
  rw [side_matches?_eq ha hu, side_matches?_eq hb hv]
  simp only [bind, Except.bind]
  cases r.previous.types.any fun type => type.holdsFor m k <;> rfl

theorem firstMatch_eq : ∀ rules : List PolicyRule,
    Policy.firstMatch m a b rules =
      .ok (((rules.find? (m.fits k l)).map PolicyRule.requirement).getD .any)
  | [] => rfl
  | r :: rules => by
      rw [Policy.firstMatch, rule_matches?_eq ha hu hb hv, List.find?_cons]
      simp only [bind, Except.bind]
      cases m.fits k l r with
      | true => rfl
      | false => exact firstMatch_eq rules

/-- The requirement for a pair: that of the last rule about the statements behind the labels. -/
theorem resolve_eq (p : Policy) : p.resolve m a b =
    .ok (((p.rules.reverse.find? (m.fits k l)).map PolicyRule.requirement).getD .any) :=
  firstMatch_eq ha hu hb hv p.rules.reverse

end pair

theorem lastToken_eq {a i : Nat} {n : Node} (ha : m.tree.node? a = some n)
    (hi : m.tokens.lastIn n.span (fun _ => true) = some i) :
    m.lastToken a = .ok ((m.isLeadingSemicolon n i).getD i) := by
  unfold lastToken
  rw [node_eq_ok ha]
  simp only [bind, Except.bind, hi]
  rfl

theorem firstToken_eq {a i : Nat} {n : Node} (ha : m.tree.node? a = some n)
    (hi : m.tokens.firstIn n.span = some i) : m.firstToken a = .ok i := by
  unfold firstToken
  rw [node_eq_ok ha]
  simp only [bind, Except.bind, hi]
  rfl

theorem node?_of_node {a : Nat} {n : Node} (h : m.node a = .ok n) : m.tree.node? a = some n := by
  unfold node at h
  split at h
  next n' hn =>
    cases h
    exact hn
  next => cases h

theorem exists_firstIn {a i : Nat} (h : m.firstToken a = .ok i) :
    ∃ n, m.tree.node? a = some n ∧ m.tokens.firstIn n.span = some i := by
  obtain ⟨n, hn, h⟩ := exists_of_bind_eq_ok h
  split at h
  next j hj =>
    cases h
    exact ⟨n, node?_of_node hn, hj⟩
  next => cases h

theorem exists_token_of_firstToken (hs : m.tokens.Separate) {a i : Nat}
    (h : m.firstToken a = .ok i) : ∃ t, m.token? i = some t := by
  obtain ⟨n, -, hi⟩ := exists_firstIn h
  obtain ⟨⟨t, ht, -⟩, -⟩ := (TokenStore.firstIn_eq_some_iff hs).1 hi
  exact ⟨t, ht⟩

theorem exists_lastIn {a i : Nat} (h : m.lastToken a = .ok i) :
    ∃ n l, m.tree.node? a = some n ∧ m.tokens.lastIn n.span (fun _ => true) = some l := by
  obtain ⟨n, hn, h⟩ := exists_of_bind_eq_ok h
  split at h
  next l hl => exact ⟨n, l, node?_of_node hn, hl⟩
  next => cases h

/-- **Neighbours can be judged**: by the last rule that fits them, and by a count of line breaks. -/
theorem Covered.exists_judge (hc : m.Covered NodeKind.isListItem) (hs : m.tokens.Separate)
    (hlab : m.LabelsHold) (p : Policy) {a b : Nat} (h : m.tree.Adjacent a b) :
    ∃ fits k, p.judge m (a, b) =
      .ok (((p.rules.reverse.find? fits).map PolicyRule.requirement).getD .any, k) := by
  obtain ⟨before, ha, hbefore⟩ := SyntaxTree.node?_of_isItem h.isItem.1
  obtain ⟨after, hb, hafter⟩ := SyntaxTree.node?_of_isItem h.isItem.2
  obtain ⟨l, hlast⟩ := hc.exists_last hs ha hbefore
  obtain ⟨f, hfirst⟩ := hc.exists_first hs hb hafter
  obtain ⟨u, k, hu, hk⟩ := exists_statement hlab (SyntaxTree.node?_lt ha)
  obtain ⟨v, n, hv, hn⟩ := exists_statement hlab (SyntaxTree.node?_lt hb)
  refine ⟨m.fits k n, Linebreaks.betweenTokens m.tokens ((m.isLeadingSemicolon before l).getD l) f,
    ?_⟩
  unfold Policy.judge
  rw [resolve_eq hu hk hv hn,
    Linebreaks.count_eq (lastToken_eq ha hlast) (firstToken_eq hb hfirst)]
  rfl

end SourceModel

end Interline
