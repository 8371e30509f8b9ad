import Mathlib
import Interline.Proofs.ExhaustiveSearch
import Interline.Proofs.Reports
import Interline.Proofs.TreePlaces

/-! # Tokens are the leaves

`ParseTree.tokens` goes down a parse tree, leaves out what has no width, and stops at leaves and at
nodes that are kept whole.  In a tree whose spans nest and are places of the text
(`ParseTree.tokens_are_leaves`)

* the tokens come in order and do not overlap, so the searches of a `TokenStore` can rely on them;
* they are the outermost pieces, one by one (`IsPieceAt`, `forall₂_tokensBelow`);
* every byte of a leaf, or of a node kept whole, is in exactly one of them (`exists_piece_above`);
* none is cut by a node, unless the node is inside a piece (`not_isCutAt`). -/

namespace Interline.JavaScript

namespace ParseTree

/-! ### Pieces -/

/-- What the grammar calls the nodes that are kept whole: strings, regular expressions and
comments. -/
def wholeForms : List Form := [.string, .regex, .comment, .htmlComment, .hashBangLine]

/-- Whether a node is kept whole. -/
def IsWhole (t : ParseTree) : Prop := ∃ form ∈ wholeForms, t.label = .named form

theorem isWhole_iff {t : ParseTree} : t.label.isWhole = true ↔ t.IsWhole := by
  have hform : ∀ {form : Form}, form.isWhole = true ↔ form ∈ wholeForms := by
    intro form
    cases form <;> decide
  unfold IsWhole Label.isWhole
  cases t.label with
  | named form => simp [hform]
  | mark text => simp

instance (t : ParseTree) : Decidable t.IsWhole := decidable_of_iff _ isWhole_iff

/-- Nodes that have width are gone through, but for those kept whole. -/
def isEntered (t : ParseTree) : Bool := t.span.start != t.span.stop && !decide t.IsWhole

/-- Leaves and nodes kept whole are pieces, if they have width. -/
def isPiece (t : ParseTree) : Bool :=
  t.span.start != t.span.stop && (t.children.isEmpty || decide t.IsWhole)

/-- Whether a place is strictly inside a node that is kept whole. -/
def InsideWhole (t : ParseTree) (p : List Nat) : Prop :=
  ∃ q v, q <+: p ∧ q ≠ p ∧ t.at? q = some v ∧ v.IsWhole

/-- An outermost piece: a leaf or a node kept whole that has width and is inside no other one. -/
def IsPieceAt (t : ParseTree) (p : List Nat) : Prop :=
  (∃ u, t.at? p = some u ∧ u.isPiece = true) ∧ ¬t.InsideWhole p

/-- The label of the node right above a place; above the tree itself is a node with the given
one. -/
def labelAbove (above : Label) (t : ParseTree) : List Nat → Label
  | [] => above
  | i :: p =>
    match t.children[i]? with
    | some c => c.labelAbove t.label p
    | none => t.label

/-- The token that the node at a place becomes. -/
def TokenAt (t : ParseTree) (source : List Char) (above : Label) (p : List Nat) (token : Token) :
    Prop :=
  ∃ u, t.at? p = some u ∧ token = leafToken source (t.labelAbove above p) u.label u.span

variable {t u v : ParseTree} {p q : List Nat} {source : List Char}

theorem isPiece_iff : t.isPiece = true ↔
    t.span.start ≠ t.span.stop ∧ (t.children = [] ∨ t.IsWhole) := by
  simp [isPiece]

theorem isEntered_iff : t.isEntered = true ↔
    t.span.start ≠ t.span.stop ∧ ¬t.IsWhole := by
  simp [isEntered]

theorem insideWhole_of_piece (hu : t.at? p = some u) (hpiece : u.isPiece = true) (hpq : p <+: q)
    (hne : p ≠ q) (hv : t.at? q = some v) : t.InsideWhole q := by
  rcases (isPiece_iff.1 hpiece).2 with hleaf | hwhole
  · exact absurd (eq_of_leaf hu hleaf hpq hv) hne
  · exact ⟨p, u, hpq, hne, hu, hwhole⟩

theorem forall₂_tokensOfAll {ts : List ParseTree}
    (h : ∀ t ∈ ts, ∀ above, List.Forall₂ (t.TokenAt source above) (t.select isEntered isPiece)
      (tokensBelow source above t)) (above : Label) (i : Nat) :
    List.Forall₂ (fun p token => ∃ j q c, p = (i + j) :: q ∧ ts[j]? = some c ∧
        c.TokenAt source above q token)
      (selectAll isEntered isPiece i ts) (tokensOfAll source above ts) := by
  induction ts generalizing i with
  | nil => exact .nil
  | cons t ts ih =>
      obtain ⟨hhead, htail⟩ := List.forall_mem_cons.1 h
      rw [selectAll, tokensOfAll]
      apply List.rel_append
      · rw [List.forall₂_map_left_iff]
        exact (hhead above).imp fun q token htoken => ⟨0, q, t, rfl, rfl, htoken⟩
      · apply (ih htail (i + 1)).imp
        rintro p token ⟨j, q, c, rfl, hc, htoken⟩
        exact ⟨j + 1, q, c, by congr 1; omega, hc, htoken⟩

theorem forall₂_tokensBelow (t : ParseTree) (above : Label) :
    List.Forall₂ (t.TokenAt source above) (t.select isEntered isPiece)
      (tokensBelow source above t) := by
  induction t generalizing above with
  | node label span children ih =>
      rw [select, tokensBelow]
      by_cases hwidth : span.start = span.stop
      · simp [isPiece, isEntered, hwidth]
      rw [if_neg hwidth]
      have hcut : (children.isEmpty || label.isWhole) = true ↔
          children = [] ∨ (ParseTree.node label span children).IsWhole := by
        rw [Bool.or_eq_true, List.isEmpty_iff, ← isWhole_iff, label_node]
      by_cases hkind : children = [] ∨ (ParseTree.node label span children).IsWhole
      · -- Nothing is listed below a piece.
        have hbelow : (if isEntered (.node label span children) = true then
            selectAll isEntered isPiece 0 children else []) = [] := by
          rcases hkind with rfl | hwhole
          · simp [selectAll]
          · simp [isEntered, hwhole]
        have hkeep : isPiece (.node label span children) = true := isPiece_iff.2 ⟨hwidth, hkind⟩
        rw [if_pos hkeep, hbelow, if_pos (hcut.2 hkind)]
        exact .cons ⟨_, at?_nil _, rfl⟩ .nil
      · have hkeep : ¬isPiece (.node label span children) = true :=
          fun h => hkind (isPiece_iff.1 h).2
        have henter : isEntered (.node label span children) = true :=
          isEntered_iff.2 ⟨hwidth, fun hwhole => hkind (.inr hwhole)⟩
        rw [if_neg hkeep, if_pos henter, if_neg (hcut.not.2 hkind), List.nil_append]
        apply (forall₂_tokensOfAll ih label 0).imp
        rintro p token ⟨j, q, c, rfl, hc, u, hu, rfl⟩
        rw [Nat.zero_add]
        exact ⟨u, at?_cons_eq_some.2 ⟨c, hc, hu⟩, by simp [labelAbove, hc]⟩

/-! ### Pieces of a text -/

section located

variable {program : ParseTree} (hn : program.Nests) (hl : program.LocatedIn source)
include hn hl

/-- A traversal that stops at pieces finds the outermost ones. -/
theorem mem_pieces_iff : p ∈ program.select isEntered isPiece ↔ program.IsPieceAt p := by
  rw [mem_select]
  refine and_congr_right fun ⟨u, hu, hpiece⟩ => ⟨?_, ?_⟩
  · rintro hreach ⟨q, v, hpre, hne, hv, hwhole⟩
    exact (isEntered_iff.1 (hreach hpre hne hv)).2 hwhole
  · intro hinside q v hpre hne hv
    refine isEntered_iff.2 ⟨?_, fun hwhole => hinside ⟨q, v, hpre, hne, hv, hwhole⟩⟩
    -- What has a piece with width below it has width.
    have hwidth := (isPiece_iff.1 hpiece).1
    have hle := (hl hu).1
    have hin := TokenStore.contains_iff.1 (hn.contains hpre hv hu)
    omega

omit hl in
theorem stop_le_start_of_pieces (hp : program.IsPieceAt p) (hq : program.IsPieceAt q) (hlt : p < q)
    (hu : program.at? p = some u) (hv : program.at? q = some v) : u.span.stop ≤ v.span.start := by
  obtain ⟨⟨u', hu', hpiece⟩, -⟩ := hp
  cases hu.symm.trans hu'
  refine hn.stop_le_start hlt (fun hpre => ?_) hu hv
  exact hq.2 (insideWhole_of_piece hu hpiece hpre (ne_of_lt hlt) hv)

omit hl in
/-- A byte of a leaf, or of a node kept whole, is in an outermost piece. -/
theorem exists_piece_above (hu : program.at? p = some u)
    (hkind : u.children = [] ∨ u.IsWhole) {n : Nat} (hfront : u.span.start ≤ n)
    (hback : n < u.span.stop) : ∃ q v, program.IsPieceAt q ∧ program.at? q = some v ∧
      v.span.start ≤ n ∧ n < v.span.stop := by
  induction h : p.length using Nat.strong_induction_on generalizing p u with
  | _ k ih =>
      by_cases hinside : program.InsideWhole p
      · obtain ⟨q, v, hpre, hne, hv, hwhole⟩ := hinside
        have hin := TokenStore.contains_iff.1 (hn.contains hpre hv hu)
        have hshort : q.length < k := by
          have := mt hpre.eq_of_length hne
          have := hpre.length_le
          omega
        exact ih q.length hshort hv (.inr hwhole) (by omega) (by omega) rfl
      · exact ⟨p, u, ⟨⟨u, hu, isPiece_iff.2 ⟨by omega, hkind⟩⟩, hinside⟩, hu, hfront, hback⟩

theorem not_isCutAt (hu : program.at? p = some u) (hinside : ¬program.InsideWhole p)
    (hq : program.IsPieceAt q) {above : Label} {token : Token}
    (htoken : program.TokenAt source above q token) :
    ¬token.IsCutAt u.span.start ∧ ¬token.IsCutAt u.span.stop := by
  obtain ⟨v, hv, rfl⟩ := htoken
  obtain ⟨⟨v', hv', hpiece⟩, -⟩ := hq
  cases hv.symm.trans hv'
  have hle := (hl hu).1
  unfold Token.IsCutAt
  show ¬(v.span.start < u.span.start ∧ u.span.start < v.span.stop) ∧
    ¬(v.span.start < u.span.stop ∧ u.span.stop < v.span.stop)
  by_cases hpq : p <+: q
  · have := TokenStore.contains_iff.1 (hn.contains hpq hu hv)
    omega
  have hqp : ¬q <+: p := fun hpre => hinside
    (insideWhole_of_piece hv hpiece hpre (fun e => hpq (e ▸ List.prefix_rfl)) hu)
  rcases lt_trichotomy p q with hlt | rfl | hlt
  · have := hn.stop_le_start hlt hpq hu hv
    omega
  · exact absurd List.prefix_rfl hpq
  · have := hn.stop_le_start hlt hqp hv hu
    omega

omit hn in
theorem read_of_piece (hq : program.IsPieceAt q) {above : Label} {token : Token}
    (htoken : program.TokenAt source above q token) : token.span.start < token.span.stop ∧
      Text.slice? source token.span.start token.span.stop = some token.text.toList ∧
      Text.positionAt? source token.span.start = some token.span.startPos ∧
      Text.positionAt? source token.span.stop = some token.span.stopPos := by
  obtain ⟨v, hv, rfl⟩ := htoken
  obtain ⟨⟨v', hv', hpiece⟩, -⟩ := hq
  cases hv.symm.trans hv'
  obtain ⟨hle, hstart, hstop⟩ := hl hv
  obtain ⟨mid, hmid, -⟩ := Text.exists_slice hstart hstop hle
  refine ⟨Nat.lt_of_le_of_ne hle (isPiece_iff.1 hpiece).1, ?_, hstart, hstop⟩
  show Text.slice? source v.span.start v.span.stop = some (leafToken source _ _ _).text.toList
  simp [leafToken, hmid]

end located

/-! ### The tokens of a program -/

theorem index_unique {tokens : List Token}
    (h : tokens.Pairwise fun a b => a.span.stop ≤ b.span.start) {i j n : Nat} {a b : Token}
    (ha : tokens[i]? = some a) (hb : tokens[j]? = some b) (hin : a.span.start ≤ n ∧ n < a.span.stop)
    (hin' : b.span.start ≤ n ∧ n < b.span.stop) : i = j := by
  obtain ⟨hi, rfl⟩ := List.getElem?_eq_some_iff.1 ha
  obtain ⟨hj, rfl⟩ := List.getElem?_eq_some_iff.1 hb
  rcases Nat.lt_trichotomy i j with hlt | heq | hlt
  · have := List.pairwise_iff_getElem.1 h i j hi hj hlt
    omega
  · exact heq
  · have := List.pairwise_iff_getElem.1 h j i hj hi hlt
    omega

/-- What the tokens of a program are. -/
structure Tokenizes (program : ParseTree) (source : List Char) (tokens : List Token) : Prop where
  /-- They come in order, one behind the other. -/
  increasing : tokens.Pairwise fun a b : Token =>
    a.span.start < b.span.start ∧ a.span.stop ≤ b.span.start
  /-- Each has width, and is what the text has at its span. -/
  read : ∀ {t : Token}, t ∈ tokens → t.span.start < t.span.stop ∧
    Text.slice? source t.span.start t.span.stop = some t.text.toList ∧
    Text.positionAt? source t.span.start = some t.span.startPos ∧
    Text.positionAt? source t.span.stop = some t.span.stopPos
  /-- They are the outermost pieces, in the order of the tree. -/
  pieces : ∃ places, places.Pairwise (· < ·) ∧ (∀ p, p ∈ places ↔ program.IsPieceAt p) ∧
    List.Forall₂ (program.TokenAt source (.named .program)) places tokens
  /-- A byte of a leaf, or of a node kept whole, is in exactly one of them. -/
  covered : ∀ {p : List Nat} {u : ParseTree} {n : Nat}, program.at? p = some u →
    u.children = [] ∨ u.IsWhole → u.span.start ≤ n → n < u.span.stop →
    ∃! i : Nat, ∃ t : Token, tokens[i]? = some t ∧ t.span.start ≤ n ∧ n < t.span.stop
  /-- A node that is not inside one kept whole cuts none of them. -/
  uncut : ∀ {p : List Nat} {u : ParseTree} {t : Token}, program.at? p = some u →
    ¬program.InsideWhole p → t ∈ tokens →
    ¬t.IsCutAt u.span.start ∧ ¬t.IsCutAt u.span.stop

namespace Tokenizes

variable {program : ParseTree} {tokens : List Token} (h : program.Tokenizes source tokens)
include h

/-- A store takes such tokens in the order that they have. -/
theorem toList_ofList : (TokenStore.ofList tokens).toList = tokens := by
  apply List.mergeSort_of_pairwise
  apply h.increasing.imp
  intro a b hab
  simp only [TokenStore.startsBy, decide_eq_true_eq]
  exact Nat.le_of_lt hab.1

theorem separate : (TokenStore.ofList tokens).Separate :=
  TokenStore.separate_ofList (fun _ ht => (h.read ht).1) (h.increasing.imp fun hab => .inl hab.2)

end Tokenizes

theorem tokenizes_tokens {program : ParseTree} {source : List Char} (hn : program.Nests)
    (hl : program.LocatedIn source) : program.Tokenizes source (program.tokens source) := by
  have hsorted : (program.select isEntered isPiece).Pairwise (· < ·) := select_sorted program
  have hpieces : List.Forall₂
      (fun p token => program.IsPieceAt p ∧ program.TokenAt source (.named .program) p token)
      (program.select isEntered isPiece) (program.tokens source) :=
    (List.forall₂_and_left _ _).2
      ⟨fun p hp => (mem_pieces_iff hn hl).1 hp, forall₂_tokensBelow program _⟩
  have hincreasing : (program.tokens source).Pairwise fun a b =>
      a.span.start < b.span.start ∧ a.span.stop ≤ b.span.start := by
    refine pairwise_of_forall₂ ?_ hpieces hsorted
    rintro p q s t ⟨hp, hs⟩ ⟨hq, ht⟩ hlt
    have hwidth := (read_of_piece hl hp hs).1
    obtain ⟨u, hu, rfl⟩ := hs
    obtain ⟨v, hv, rfl⟩ := ht
    have hle : u.span.stop ≤ v.span.start := stop_le_start_of_pieces hn hp hq hlt hu hv
    exact ⟨Nat.lt_of_lt_of_le hwidth hle, hle⟩
  constructor
  case increasing => exact hincreasing
  case read =>
    intro t ht
    obtain ⟨p, -, hp, htoken⟩ := exists_left_of_forall₂ hpieces ht
    exact read_of_piece hl hp htoken
  case pieces =>
    exact ⟨_, hsorted, fun p => mem_pieces_iff hn hl, forall₂_tokensBelow program _⟩
  case covered =>
    intro p u n hu hkind hfront hback
    obtain ⟨q, v, hq, hv, hfront, hback⟩ := exists_piece_above hn hu hkind hfront hback
    obtain ⟨t, ht, -, v', hv', rfl⟩ :=
      exists_right_of_forall₂ hpieces ((mem_pieces_iff hn hl).2 hq)
    cases hv.symm.trans hv'
    obtain ⟨i, hi⟩ := List.mem_iff_getElem?.1 ht
    refine ⟨i, ⟨_, hi, hfront, hback⟩, ?_⟩
    rintro j ⟨s, hj, hin⟩
    exact index_unique (hincreasing.imp And.right) hj hi hin ⟨hfront, hback⟩
  case uncut =>
    intro p u t hu hinside ht
    obtain ⟨q, -, hq, htoken⟩ := exists_left_of_forall₂ hpieces ht
    exact not_isCutAt hn hl hu hinside hq htoken

/-- **The tokens of a program are its leaves, with literals and comments in one piece.**  Let the
spans of a parse tree nest, and be places of a text.  Then its tokens come one behind the other, each
has the text of its span, they are the outermost pieces of the tree, together they hold the bytes of
all leaves, and no node cuts them.  A store keeps them in this order. -/
theorem tokens_are_leaves {program : ParseTree} {source : List Char} (hn : program.Nests)
    (hl : program.LocatedIn source) :
    program.Tokenizes source (program.tokens source) ∧
    (TokenStore.ofList (program.tokens source)).toList = program.tokens source ∧
    (TokenStore.ofList (program.tokens source)).Separate := by
  have h := tokenizes_tokens hn hl
  exact ⟨h, h.toList_ofList, h.separate⟩

/-- The text `x='a'/**/`, with a string that the grammar takes apart, a semicolon without width and a
comment. -/
def quotedName : ParseTree :=
  let at_ (start stop : Nat) : Span := Text.spanAt "x='a'/**/".toList start stop
  .node (.named .program) (at_ 0 9)
    [.node (.named .expressionStatement) (at_ 0 5)
      [.node (.named .phrase) (at_ 0 5)
        [.node (.named .name) (at_ 0 1) [],
          .node (.mark "=") (at_ 1 2) [],
          .node (.named .string) (at_ 2 5)
            [.node (.mark "\x27") (at_ 2 3) [], .node (.named .stringFragment) (at_ 3 4) [],
              .node (.mark "\x27") (at_ 4 5) []]],
        .node (.mark ";") (at_ 5 5) []],
      .node (.named .comment) (at_ 5 9) []]

theorem tokens_are_leaves_quotedName :
    quotedName.Nests ∧ quotedName.LocatedIn "x='a'/**/".toList ∧
    (quotedName.tokens "x='a'/**/".toList).map (·.text) = ["x", "=", "'a'", "/**/"] ∧
    (TokenStore.ofList (quotedName.tokens "x='a'/**/".toList)).toList =
      quotedName.tokens "x='a'/**/".toList ∧
    ∃! i : Nat, ∃ t : Token, (quotedName.tokens "x='a'/**/".toList)[i]? = some t ∧
      t.span.start ≤ 3 ∧ 3 < t.span.stop := by
  have hn : quotedName.Nests := by decide +kernel
  have hl : quotedName.LocatedIn "x='a'/**/".toList := by decide +kernel
  obtain ⟨h, hstore, -⟩ := tokens_are_leaves hn hl
  refine ⟨hn, hl, by decide +kernel, hstore, ?_⟩
  -- The byte is that of the fragment inside the string.
  have hfragment : quotedName.at? [0, 0, 2, 1] =
      some (.node (.named .stringFragment) (Text.spanAt "x='a'/**/".toList 3 4) []) := rfl
  exact h.covered hfragment (.inl rfl) (by decide) (by decide)

end ParseTree
end Interline.JavaScript
