import Mathlib
import Interline.Proofs.Coherence

/-! # Finding out whether a model is coherent

Each part of coherence looks at finitely many nodes, tokens and bytes, so it can be decided
(`placed_iff`, `nested_iff`, `covered_iff`, `labelsHold_iff`, `commentsBetween_iff`,
`isSpaced_iff`).  `SourceModel.ofOffsets` makes a model from the offsets of its tokens and nodes
alone: texts, lines and columns are read off the text. -/

namespace Interline

/-! ### Models by offsets -/

/-- A token by its place. -/
structure TokenAt where
  kind : TokenKind
  start : Nat
  stop : Nat
  closes : Option Body

/-- A node by its place, with the node that it is hung below. -/
structure NodeAt where
  parent : Nat
  kind : NodeKind
  start : Nat
  stop : Nat

/-- The model of a text with the given tokens, which come in order, and the given nodes. -/
def SourceModel.ofOffsets (text : String) (tokens : List TokenAt) (nodes : List NodeAt)
    (sorted : tokens.Pairwise fun a b => a.start ≤ b.start) : SourceModel where
  text := text
  tokens := {
    toList := tokens.map fun t =>
      { kind := t.kind
        text := String.ofList ((Text.slice? text.toList t.start t.stop).getD [])
        span := Text.spanAt text.toList t.start t.stop
        closes := t.closes }
    sorted := by
      rw [List.pairwise_map]
      exact sorted }
  tree := (SyntaxTree.ofRoot (Text.spanAt text.toList 0 (Text.byteLength text.toList))).pushAll
    (nodes.map fun n => (n.parent, n.kind, Text.spanAt text.toList n.start n.stop))

theorem SourceModel.grown_ofOffsets {text : String} {tokens : List TokenAt} {nodes : List NodeAt}
    (sorted : tokens.Pairwise fun a b => a.start ≤ b.start) :
    (ofOffsets text tokens nodes sorted).tree.Grown :=
  SyntaxTree.Grown.pushAll _ (.root _)

/-! ### Decisions -/

theorem SyntaxTree.nested_iff {t : SyntaxTree} : t.Nested ↔
    ∀ a < t.size, ∀ n ∈ t.node? a,
      (∀ c ∈ n.children, ∀ k ∈ t.node? c, n.span.contains k.span = true) ∧
      n.children.Pairwise fun c d => ∀ k ∈ t.node? c, ∀ l ∈ t.node? d,
        k.span.stop ≤ l.span.start := by
  constructor
  · intro h a _ n hn
    refine ⟨fun c hc k hk => h.within ⟨n, hn, hc⟩ hn hk, (h.apart hn).imp ?_⟩
    intro c d hcd k hk l hl
    exact hcd k l hk hl
  · intro h
    refine ⟨?_, ?_⟩
    · rintro a c n k ⟨n', hn', hc⟩ hn hk
      rw [hn] at hn'
      cases hn'
      exact (h a (node?_lt hn) n hn).1 c hc k hk
    · intro a n hn
      apply (h a (node?_lt hn) n hn).2.imp
      intro c d hcd k l hk hl
      exact hcd k hk l hl

instance (t : SyntaxTree) : Decidable t.Nested := decidable_of_iff _ SyntaxTree.nested_iff.symm

theorem Token.isCutAt_iff {t : Token} {place : Nat} :
    t.IsCutAt place ↔ t.span.start < place ∧ place < t.span.stop :=
  Iff.rfl

instance (t : Token) (place : Nat) : Decidable (t.IsCutAt place) :=
  decidable_of_iff _ Token.isCutAt_iff.symm

namespace SourceModel

variable {m : SourceModel}

theorem token?_of_mem {t : Token} (h : t ∈ m.tokens.toList) : ∃ i, m.token? i = some t :=
  List.getElem?_of_mem h

theorem mem_of_token? {i : Nat} {t : Token} (h : m.token? i = some t) : t ∈ m.tokens.toList :=
  List.mem_of_getElem? h

theorem placed_iff : m.Placed ↔
    (m.tokens.toList.Pairwise fun a b => a.span.stop ≤ b.span.start) ∧
    ∀ t ∈ m.tokens.toList, t.span.start < t.span.stop ∧
      Text.positionAt? m.text.toList t.span.start = some t.span.startPos ∧
      Text.positionAt? m.text.toList t.span.stop = some t.span.stopPos := by
  constructor
  · intro h
    refine ⟨TokenStore.pairwise_of_get? h.separate.apart, fun t ht => ?_⟩
    obtain ⟨i, hi⟩ := token?_of_mem ht
    exact ⟨h.separate.width hi, h.start hi, h.stop hi⟩
  · rintro ⟨hapart, h⟩
    refine ⟨⟨fun hi => (h _ (mem_of_token? hi)).1, ?_⟩, fun hi => (h _ (mem_of_token? hi)).2.1,
      fun hi => (h _ (mem_of_token? hi)).2.2⟩
    intro i j a b hij ha hb
    obtain ⟨hi, rfl⟩ := List.getElem?_eq_some_iff.1 ha
    obtain ⟨hj, rfl⟩ := List.getElem?_eq_some_iff.1 hb
    exact List.pairwise_iff_getElem.1 hapart i j hi hj hij

instance (m : SourceModel) : Decidable m.Placed := decidable_of_iff _ placed_iff.symm

theorem covered_iff {sort : NodeKind → Bool} : m.Covered sort ↔
    ∀ a < m.tree.size, ∀ n ∈ m.tree.node? a, sort n.kind = true →
      (∀ t ∈ m.tokens.toList, ¬t.IsCutAt n.span.start ∧ ¬t.IsCutAt n.span.stop) ∧
      ∃ t ∈ m.tokens.toList, n.span.contains t.span = true ∧ t.isComment = false := by
  constructor
  · intro h a _ n hn hk
    refine ⟨fun t ht => ?_, ?_⟩
    · obtain ⟨i, hi⟩ := token?_of_mem ht
      exact h.intact hn hk hi
    · obtain ⟨i, t, ht, hin, hcode, -⟩ := h.code hn hk
      exact ⟨t, mem_of_token? ht, hin, hcode⟩
  · intro h
    refine ⟨?_, ?_⟩
    · intro a i n t hn hk ht
      exact (h a (SyntaxTree.node?_lt hn) n hn hk).1 t (mem_of_token? ht)
    · intro a n hn hk
      obtain ⟨t, ht, hin, hcode⟩ := (h a (SyntaxTree.node?_lt hn) n hn hk).2
      obtain ⟨i, hi⟩ := token?_of_mem ht
      exact ⟨i, t, hi, hin, hcode, rfl⟩

instance (m : SourceModel) (sort : NodeKind → Bool) : Decidable (m.Covered sort) :=
  decidable_of_iff _ covered_iff.symm

theorem labelsHold_iff : m.LabelsHold ↔
    ∀ a < m.tree.size, ∀ n ∈ m.tree.node? a, n.kind = .statement .labeled →
      ∃ c ∈ n.children, m.tree.isStatement c = true := by
  constructor
  · intro h a _ n hn hk
    exact h hn hk
  · intro h a n hn hk
    exact h a (SyntaxTree.node?_lt hn) n hn hk

instance (m : SourceModel) : Decidable m.LabelsHold := decidable_of_iff _ labelsHold_iff.symm

/-- In a tree that has grown, the neighbours are its pairs. -/
theorem commentsBetween_iff (hg : m.tree.Grown) : m.CommentsBetween ↔
    ∀ pair ∈ m.tree.pairs, ∀ before ∈ m.tree.node? pair.1, ∀ after ∈ m.tree.node? pair.2,
      ∀ t ∈ m.tokens.toList, before.span.stop ≤ t.span.start → t.span.stop ≤ after.span.start →
        t.isComment = true := by
  constructor
  · rintro h ⟨p, n⟩ hpair before hp after hn t ht
    obtain ⟨i, hi⟩ := token?_of_mem ht
    exact h ((SyntaxTree.mem_pairs_iff hg.linked).1 hpair) hp hn hi
  · intro h p n i before after t hpn hp hn ht
    exact h (p, n) ((SyntaxTree.mem_pairs_iff hg.linked).2 hpn) before hp after hn t
      (mem_of_token? ht)

theorem covers_iff {n : Nat} :
    m.Covers n ↔ ∃ t ∈ m.tokens.toList, t.span.start ≤ n ∧ n < t.span.stop := by
  constructor
  · rintro ⟨i, t, ht, h⟩
    exact ⟨t, mem_of_token? ht, h⟩
  · rintro ⟨t, ht, h⟩
    obtain ⟨i, hi⟩ := token?_of_mem ht
    exact ⟨i, t, hi, h⟩

instance (m : SourceModel) (n : Nat) : Decidable (m.Covers n) := decidable_of_iff _ covers_iff.symm

/-- Looks at each byte of the text. -/
def isSpaced (m : SourceModel) (white : Char → Bool) : Bool :=
  (List.range (Text.byteLength m.text.toList)).all fun n =>
    (Text.charAt? m.text.toList n).all white ||
      m.tokens.toList.any fun t => decide (t.span.start ≤ n) && decide (n < t.span.stop)

theorem isSpaced_iff {white : Char → Bool} : m.isSpaced white = true ↔ m.Spaced white := by
  unfold isSpaced Spaced
  simp only [List.all_eq_true, List.mem_range, Bool.or_eq_true, Option.all_eq_true,
    List.any_eq_true, Bool.and_eq_true, decide_eq_true_eq, covers_iff]
  constructor
  · intro h n c hc
    exact (h n (Text.lt_of_charAt? hc)).imp_left fun hwhite => hwhite c hc
  · intro h n hn
    obtain ⟨c, hc⟩ := Text.exists_charAt? hn
    apply (h hc).imp_left
    intro hwhite d hd
    rw [hc] at hd
    cases hd
    exact hwhite

instance (m : SourceModel) (white : Char → Bool) : Decidable (m.Spaced white) :=
  decidable_of_iff _ isSpaced_iff

end SourceModel

end Interline
