import Mathlib
import Interline.Proofs.LastTokens
import Interline.Proofs.Rebasing

/-! # Edits that spare the tokens

Edits may put something in between tokens or cut out what is there.  As long as they spare the
tokens, nothing changes for a span: it holds the same tokens as before (`contains_rebase_iff`), so
it starts and ends with the same ones (`firstIn_rebase`, `lastIn_rebase`), and a statement is of the
same types, its size in lines aside (`holdsFor_rebase`).  A place inside a token stays there
(`moved_inside`), so a span cuts the tokens that it has cut before; one that cuts none is
`SourceModel.Intact`.

* `Coherent.rebase`: the model of the edited text is coherent again.
* `Coherent.resolve_rebase_of_matches`: neighbours are judged by the same rule, if no rule tells
  them apart by a size in lines that has changed.
* `exists_lines_between`: the lines between two tokens are those of the text between them, before
  and after. -/

namespace Interline

open Replacement

/-! ### Trees -/

namespace SyntaxTree

variable {t t' : SyntaxTree} {text : List Char} {taken : List Replacement}

theorem eq_of_nodes (h : t.nodes = t'.nodes) : t = t' := by
  cases t
  cases t'
  cases h
  rfl

theorem rebase_ofRoot (span : Span) :
    (ofRoot span).rebase text taken = ofRoot (span.rebase text taken) := by
  apply eq_of_nodes
  simp only [rebase, ofRoot, List.map_toArray, List.map_cons, List.map_nil, Node.rebase]

theorem push?_rebase {parent id : Nat} {kind : NodeKind} {span : Span}
    (h : t.push? parent kind span = some (id, t')) :
    (t.rebase text taken).push? parent kind (span.rebase text taken) =
      some (id, t'.rebase text taken) := by
  obtain ⟨hp, rfl, hnodes⟩ := push?_eq_some h
  have hsize : (t.rebase text taken).nodes.size = t.size := Array.size_map
  unfold push?
  rw [dif_pos (by rw [hsize]; exact hp)]
  refine congrArg some (Prod.ext hsize (eq_of_nodes ?_))
  simp only [hsize]
  unfold rebase
  simp only [hnodes]
  apply Array.ext_getElem?
  intro i
  simp only [Array.getElem?_push, Array.size_modify, Array.size_map, Array.getElem?_modify,
    Array.getElem?_map]
  split
  · rfl
  · split
    · cases t.nodes[i]? <;> rfl
    · rfl

theorem Grown.rebase (h : t.Grown) : (t.rebase text taken).Grown := by
  induction h with
  | root span => exact rebase_ofRoot span ▸ .root _
  | push _ hp ih => exact ih.push (push?_rebase hp)

end SyntaxTree

namespace SourceModel

variable {m : SourceModel} {fixes : List Replacement}

theorem node?_rebase (i : Nat) : (m.rebase fixes).tree.node? i = (m.tree.node? i).map
    (Node.rebase (m.rebase fixes).text.toList (accepted m.text.toList fixes)) :=
  SyntaxTree.node?_rebase i

theorem node?_rebase_of_eq {a : Nat} {n : Node} (ha : m.tree.node? a = some n) :
    (m.rebase fixes).tree.node? a =
      some (n.rebase (m.rebase fixes).text.toList (accepted m.text.toList fixes)) := by
  rw [node?_rebase, ha]
  rfl

theorem node?_rebase_eq_some {a : Nat} {n' : Node} (h : (m.rebase fixes).tree.node? a = some n') :
    ∃ n, m.tree.node? a = some n ∧
      n' = n.rebase (m.rebase fixes).text.toList (accepted m.text.toList fixes) := by
  rw [node?_rebase] at h
  obtain ⟨n, ha, e⟩ := Option.map_eq_some_iff.1 h
  exact ⟨n, ha, e.symm⟩

/-! ### Spans and their tokens -/

section spared

variable (hp : m.Placed) (hs : m.tokens.Spares (accepted m.text.toList fixes))
include hp hs

omit hp in
theorem moved_inside {i : Nat} {t : Token} (ht : m.token? i = some t) {place : Nat}
    (hcut : t.IsCutAt place) (ends : Bool) :
    moved ends 0 (accepted m.text.toList fixes) place =
      moved false 0 (accepted m.text.toList fixes) t.span.start + (place - t.span.start) := by
  obtain ⟨hfront, hback⟩ := hcut
  have e : t.span.start + (place - t.span.start) = place := by omega
  conv_lhs => rw [← e]
  apply moved_add (Nat.zero_le _)
  intro r hr
  have hfit := start_le_of_fits (mem_accepted hr).2
  have hspare := hs r hr ht
  rw [e]
  simp only [isPassed, Bool.false_eq_true, if_false, decide_eq_true_eq]
  cases ends <;> simp <;> omega

theorem start_le_rebase_iff {span : Span} {i : Nat} {t : Token} (ht : m.token? i = some t) :
    moved false 0 (accepted m.text.toList fixes) span.start ≤
        moved false 0 (accepted m.text.toList fixes) t.span.start ↔
      span.start ≤ t.span.start := by
  have hw := hp.separate.width ht
  have hlen := moved_stop hp hs ht
  unfold Span.length at hlen
  constructor
  · intro hfront
    by_contra hlt
    rcases Nat.lt_or_ge span.start t.span.stop with hcut | hle
    · have := moved_inside hs ht ⟨by omega, hcut⟩ false
      omega
    · have := moved_apart hle (accepted m.text.toList fixes) 0
      omega
  · intro hfront
    exact moved_mono _ hfront _ _

theorem stop_le_rebase_iff {span : Span} {i : Nat} {t : Token} (ht : m.token? i = some t) :
    moved true 0 (accepted m.text.toList fixes) t.span.stop ≤
        moved true 0 (accepted m.text.toList fixes) span.stop ↔
      t.span.stop ≤ span.stop := by
  have hw := hp.separate.width ht
  have hlen := moved_stop hp hs ht
  unfold Span.length at hlen
  constructor
  · intro hback
    by_contra hlt
    rcases Nat.lt_or_ge t.span.start span.stop with hcut | hle
    · have := moved_inside hs ht ⟨hcut, by omega⟩ true
      omega
    · have := moved_apart hle (accepted m.text.toList fixes) 0
      omega
  · intro hback
    exact moved_mono _ hback _ _

/-- A token stays in the spans that it has been in, and comes into no other one. -/
theorem contains_rebase_iff {span : Span} {i : Nat} {t : Token} (ht : m.token? i = some t) :
    (span.rebase (m.rebase fixes).text.toList (accepted m.text.toList fixes)).contains
        (t.span.rebase (m.rebase fixes).text.toList (accepted m.text.toList fixes)) = true ↔
      span.contains t.span = true := by
  rw [TokenStore.contains_iff, TokenStore.contains_iff]
  exact and_congr (start_le_rebase_iff hp hs ht) (stop_le_rebase_iff hp hs ht)

theorem codeIn_rebase {span : Span} {accept : Token → Bool} {i : Nat}
    (hacc : ∀ t : Token, ∀ text taken, accept (t.rebase text taken) = accept t) :
    (m.rebase fixes).tokens.CodeIn
        (span.rebase (m.rebase fixes).text.toList (accepted m.text.toList fixes)) accept i ↔
      m.tokens.CodeIn span accept i := by
  unfold TokenStore.CodeIn
  constructor
  · rintro ⟨t', ht', hin, hcode, hok⟩
    obtain ⟨t, ht, rfl⟩ := token?_rebase_eq_some ht'
    exact ⟨t, ht, (contains_rebase_iff hp hs ht).1 hin, hcode, by rwa [hacc] at hok⟩
  · rintro ⟨t, ht, hin, hcode, hok⟩
    exact ⟨_, token?_rebase_of_eq _ ht, (contains_rebase_iff hp hs ht).2 hin, hcode,
      by rwa [hacc]⟩

theorem firstIn_rebase {span : Span} :
    (m.rebase fixes).tokens.firstIn
        (span.rebase (m.rebase fixes).text.toList (accepted m.text.toList fixes)) =
      m.tokens.firstIn span := by
  ext i
  rw [TokenStore.firstIn_eq_some_iff (Placed.rebase hp hs).separate,
    TokenStore.firstIn_eq_some_iff hp.separate]
  have hcode : ∀ j, (m.rebase fixes).tokens.CodeIn
        (span.rebase (m.rebase fixes).text.toList (accepted m.text.toList fixes))
        (fun _ => true) j ↔ m.tokens.CodeIn span (fun _ => true) j :=
    fun _ => codeIn_rebase hp hs fun _ _ _ => rfl
  simp only [hcode]

theorem lastIn_rebase {span : Span} {accept : Token → Bool}
    (hacc : ∀ t : Token, ∀ text taken, accept (t.rebase text taken) = accept t) :
    (m.rebase fixes).tokens.lastIn
        (span.rebase (m.rebase fixes).text.toList (accepted m.text.toList fixes)) accept =
      m.tokens.lastIn span accept := by
  ext i
  rw [TokenStore.lastIn_eq_some_iff (Placed.rebase hp hs).separate,
    TokenStore.lastIn_eq_some_iff hp.separate]
  simp only [codeIn_rebase hp hs hacc]

/-- In the edited text only the lines of the tokens can make a difference. -/
theorem guards_rebase_iff {n : Node} {l j f : Nat} {s t s' t' u' : Token}
    (hl : m.token? l = some s) (hj : m.token? j = some t)
    (hl' : (m.rebase fixes).token? l = some s') (hj' : (m.rebase fixes).token? j = some t')
    (hf' : (m.rebase fixes).token? f = some u') (haft : m.tokens.after l false = some f) :
    (m.rebase fixes).Guards
        (n.rebase (m.rebase fixes).text.toList (accepted m.text.toList fixes)) l j ↔
      s.isSemicolon = true ∧ m.tokens.before l false = some j ∧ n.span.start ≤ t.span.start ∧
        s'.span.startPos.line ≠ t'.span.stopPos.line ∧
        s'.span.stopPos.line = u'.span.startPos.line := by
  have hbef : (m.rebase fixes).tokens.before l false = m.tokens.before l false :=
    TokenStore.before_rebase l false
  rw [guards_iff hl' hj' hf' ((TokenStore.after_rebase l false).trans haft), hbef]
  cases (token?_rebase_of_eq fixes hl).symm.trans hl'
  cases (token?_rebase_of_eq fixes hj).symm.trans hj'
  exact and_congr_right fun _ => and_congr_right fun _ =>
    and_congr_left fun _ => start_le_rebase_iff hp hs hj

end spared

/-! ### Statements -/

theorem unwrapLabels_eq (m : SourceModel) (a : Nat) : m.unwrapLabels a =
    match m.tree.node? a with
    | none => .error (.danglingNode a)
    | some n =>
      if n.kind = .statement .labeled then
        match n.children.find? m.tree.isStatement with
        | none => .error (.missingLabelBody a)
        | some child => m.unwrapLabels child
      else .ok a := by
  rw [unwrapLabels]
  cases m.tree.node? a with
  | none => rfl
  | some n =>
      simp only
      split
      next => cases n.children.find? m.tree.isStatement <;> rfl
      next => rfl

theorem unwrapLabels_rebase (a : Nat) : (m.rebase fixes).unwrapLabels a = m.unwrapLabels a := by
  have hstatement : (m.rebase fixes).tree.isStatement = m.tree.isStatement :=
    funext SyntaxTree.isStatement_rebase
  rw [unwrapLabels_eq, node?_rebase, hstatement]
  fun_induction unwrapLabels m a with
  | case1 a hn => rw [hn]; rfl
  | case2 a n hn hk hc =>
      rw [hn]
      simp only [Option.map_some, Node.rebase, hk, if_true, hc]
  | case3 a n hn hk child hc ih =>
      rw [hn]
      simp only [Option.map_some, Node.rebase, hk, if_true, hc]
      rw [unwrapLabels_eq, node?_rebase, hstatement]
      exact ih
  | case4 a n hn hk =>
      rw [hn]
      simp only [Option.map_some, Node.rebase, hk, if_false]

theorem any_token?_rebase {test : Token → Bool}
    (htest : ∀ t : Token, ∀ text taken, test (t.rebase text taken) = test t) (i : Option Nat) :
    (i.bind (m.rebase fixes).token?).any test = (i.bind m.token?).any test := by
  cases i with
  | none => rfl
  | some i =>
      rw [Option.bind_some, Option.bind_some, token?_rebase]
      cases m.token? i with
      | none => rfl
      | some t => exact htest t _ _

section spared

variable (hp : m.Placed) (hs : m.tokens.Spares (accepted m.text.toList fixes))
include hp hs

theorem holdsFor_rebase {n : Node} {type : StatementType}
    (h : type ≠ .multilineBlockLike) :
    type.holdsFor (m.rebase fixes)
        (n.rebase (m.rebase fixes).text.toList (accepted m.text.toList fixes)) =
      type.holdsFor m n := by
  cases type with
  | any => rfl
  | block => rfl
  | blockLike =>
      simp only [StatementType.holdsFor, StatementType.isBlockLike, Node.rebase]
      rw [lastIn_rebase hp hs fun _ _ _ => rfl, any_token?_rebase fun _ _ _ => rfl]
  | multilineBlockLike => exact absurd rfl h
  | directive => rfl
  | empty => rfl
  | expression => rfl
  | keyword k =>
      simp only [StatementType.holdsFor, Node.rebase]
      rw [firstIn_rebase hp hs, any_token?_rebase fun _ _ _ => rfl]

/-- A rule is about the same statements as before, if those that it tells apart by their sizes in
lines are as before. -/
theorem fits_rebase {k l : Node} {r : PolicyRule}
    (hprevious : .multilineBlockLike ∈ r.previous.types →
      StatementType.multilineBlockLike.holdsFor (m.rebase fixes)
          (k.rebase (m.rebase fixes).text.toList (accepted m.text.toList fixes)) =
        StatementType.multilineBlockLike.holdsFor m k)
    (hnext : .multilineBlockLike ∈ r.next.types →
      StatementType.multilineBlockLike.holdsFor (m.rebase fixes)
          (l.rebase (m.rebase fixes).text.toList (accepted m.text.toList fixes)) =
        StatementType.multilineBlockLike.holdsFor m l) :
    (m.rebase fixes).fits (k.rebase (m.rebase fixes).text.toList (accepted m.text.toList fixes))
        (l.rebase (m.rebase fixes).text.toList (accepted m.text.toList fixes)) r =
      m.fits k l r := by
  have side : ∀ {n : Node} {types : List StatementType},
      (.multilineBlockLike ∈ types → StatementType.multilineBlockLike.holdsFor (m.rebase fixes)
          (n.rebase (m.rebase fixes).text.toList (accepted m.text.toList fixes)) =
        StatementType.multilineBlockLike.holdsFor m n) →
      (types.any fun type => type.holdsFor (m.rebase fixes)
        (n.rebase (m.rebase fixes).text.toList (accepted m.text.toList fixes))) =
        types.any fun type => type.holdsFor m n := by
    intro n types hmulti
    rw [Bool.eq_iff_iff, List.any_eq_true, List.any_eq_true]
    refine exists_congr fun type => and_congr_right fun hmem => Bool.eq_iff_iff.1 ?_
    by_cases htype : type = .multilineBlockLike
    · subst htype
      exact hmulti hmem
    · exact holdsFor_rebase hp hs htype
  unfold fits
  rw [side hprevious, side hnext]

end spared

/-! ### Coherence -/

section coherent

variable {sort : NodeKind → Bool} (hs : m.tokens.Spares (accepted m.text.toList fixes))
include hs

omit hs in
theorem Nested.rebase (hn : m.tree.Nested) : (m.rebase fixes).tree.Nested where
  within hac ha' hc' := by
    obtain ⟨n, ha, rfl⟩ := node?_rebase_eq_some ha'
    obtain ⟨k, hc, rfl⟩ := node?_rebase_eq_some hc'
    have hin := hn.within ((SyntaxTree.isChild_rebase _ _).1 hac) ha hc
    obtain ⟨hstart, hstop⟩ := TokenStore.contains_iff.1 hin
    exact TokenStore.contains_iff.2 ⟨moved_mono _ hstart _ _,
      moved_mono _ hstop _ _⟩
  apart ha' := by
    obtain ⟨n, ha, rfl⟩ := node?_rebase_eq_some ha'
    apply (hn.apart ha).imp
    intro c d hcd _ _ hk' hl'
    obtain ⟨k, hk, rfl⟩ := node?_rebase_eq_some hk'
    obtain ⟨l, hl, rfl⟩ := node?_rebase_eq_some hl'
    have hle := hcd k l hk hl
    exact moved_apart hle _ _

/-- A span that begins and ends between tokens. -/
def Intact (m : SourceModel) (s : Span) : Prop :=
  ∀ {i : Nat} {t : Token}, m.token? i = some t → ¬t.IsCutAt s.start ∧ ¬t.IsCutAt s.stop

omit hs in
theorem Intact.rebase {span : Span} (hi : m.Intact span) :
    (m.rebase fixes).Intact
      (span.rebase (m.rebase fixes).text.toList (accepted m.text.toList fixes)) := by
  intro i t' ht'
  obtain ⟨t, ht, rfl⟩ := token?_rebase_eq_some ht'
  obtain ⟨hstart, hstop⟩ := hi ht
  unfold Token.IsCutAt at hstart hstop ⊢
  simp only [Token.rebase, Span.rebase, Text.spanAt]
  constructor
  · rintro ⟨hfront, hback⟩
    rcases Nat.lt_or_ge t.span.start span.start with hlt | hge
    · have hle : t.span.stop ≤ span.start := by omega
      have := moved_apart hle (accepted m.text.toList fixes) 0
      omega
    · have := moved_mono false hge (accepted m.text.toList fixes) 0
      omega
  · rintro ⟨hfront, hback⟩
    rcases Nat.lt_or_ge span.stop t.span.stop with hlt | hge
    · have hle : span.stop ≤ t.span.start := by omega
      have := moved_apart hle (accepted m.text.toList fixes) 0
      omega
    · have := moved_mono true hge (accepted m.text.toList fixes) 0
      omega

theorem Covered.rebase (hp : m.Placed) (hc : m.Covered sort) : (m.rebase fixes).Covered sort where
  intact ha' hk ht := by
    obtain ⟨n, ha, rfl⟩ := node?_rebase_eq_some ha'
    exact Intact.rebase (hc.intact ha hk) ht
  code ha' hk := by
    obtain ⟨n, ha, rfl⟩ := node?_rebase_eq_some ha'
    obtain ⟨i, hi⟩ := hc.code ha hk
    exact ⟨i, (codeIn_rebase hp hs fun _ _ _ => rfl).2 hi⟩

/-- **Edits that spare the tokens keep a model coherent.** -/
theorem Coherent.rebase (hm : m.Coherent sort) : (m.rebase fixes).Coherent sort where
  grown := hm.grown.rebase
  placed := hm.placed.rebase hs
  nested := Nested.rebase hm.nested
  covered := Covered.rebase hs hm.placed hm.covered

omit hs in
theorem LabelsHold.rebase (h : m.LabelsHold) : (m.rebase fixes).LabelsHold := by
  intro a _ ha' hk
  obtain ⟨n, ha, rfl⟩ := node?_rebase_eq_some ha'
  obtain ⟨c, hc, hstatement⟩ := h ha hk
  exact ⟨c, hc, (SyntaxTree.isStatement_rebase c).trans hstatement⟩

theorem CommentsBetween.rebase (hm : m.Coherent NodeKind.isListItem) (hc : m.CommentsBetween) :
    (m.rebase fixes).CommentsBetween := by
  intro p n i _ _ _ hpn' hp' hn' hu' hfront hback
  have hpn := (SyntaxTree.adjacent_rebase p n).1 hpn'
  obtain ⟨k, hp, rfl⟩ := node?_rebase_eq_some hp'
  obtain ⟨l, hn, rfl⟩ := node?_rebase_eq_some hn'
  obtain ⟨u, hu, rfl⟩ := token?_rebase_eq_some hu'
  have hcutp := (hm.covered.intact hp (SyntaxTree.isListItem_of_isItem hpn.isItem.1 hp) hu).2
  have hcutn := (hm.covered.intact hn (SyntaxTree.isListItem_of_isItem hpn.isItem.2 hn) hu).1
  have hw := hm.placed.separate.width hu
  have hlen := moved_stop hm.placed hs hu
  unfold Token.IsCutAt at hcutp hcutn
  unfold Span.length at hlen
  simp only [Node.rebase, Token.rebase, Span.rebase, Text.spanAt] at hfront hback
  refine (hc hpn hp hn hu ?_ ?_ : u.isComment = true)
  · by_contra hlt
    have hle : u.span.stop ≤ k.span.stop := by omega
    have := moved_mono true hle (accepted m.text.toList fixes) 0
    omega
  · by_contra hlt
    have hle : l.span.start ≤ u.span.start := by omega
    have := moved_mono false hle (accepted m.text.toList fixes) 0
    omega

/-! ### Neighbours -/

theorem firstToken_rebase (hp : m.Placed) {b f : Nat} {after : Node}
    (hb : m.tree.node? b = some after) (hf : m.tokens.firstIn after.span = some f) :
    (m.rebase fixes).firstToken b = .ok f :=
  firstToken_eq (node?_rebase_of_eq hb) ((firstIn_rebase hp hs).trans hf)

/-- A statement ends with the same token as before, a semicolon aside. -/
theorem lastToken_rebase (hp : m.Placed) {a l : Nat} {before : Node}
    (ha : m.tree.node? a = some before)
    (hl : m.tokens.lastIn before.span (fun _ => true) = some l) :
    (m.rebase fixes).lastToken a = .ok (((m.rebase fixes).isLeadingSemicolon
      (before.rebase (m.rebase fixes).text.toList (accepted m.text.toList fixes)) l).getD l) :=
  lastToken_eq (node?_rebase_of_eq ha) ((lastIn_rebase hp hs fun _ _ _ => rfl).trans hl)

namespace Coherent

theorem resolve_rebase_of_matches (hm : m.Coherent NodeKind.isListItem) (hlab : m.LabelsHold)
    {p : Policy} {a b : Nat} (hab : m.tree.Adjacent a b)
    (hsizes : ∀ r ∈ p.rules,
      (.multilineBlockLike ∈ r.previous.types →
        (TypeSpec.single .multilineBlockLike).matches? (m.rebase fixes) a =
          (TypeSpec.single .multilineBlockLike).matches? m a) ∧
      (.multilineBlockLike ∈ r.next.types →
        (TypeSpec.single .multilineBlockLike).matches? (m.rebase fixes) b =
          (TypeSpec.single .multilineBlockLike).matches? m b)) :
    p.resolve (m.rebase fixes) a b = p.resolve m a b := by
  obtain ⟨_, _, ha, hb, -⟩ := hm.exists_nodes hab
  obtain ⟨u, n, hu, hn⟩ := exists_statement hlab (SyntaxTree.node?_lt ha)
  obtain ⟨v, n', hv, hn'⟩ := exists_statement hlab (SyntaxTree.node?_lt hb)
  have hu' : (m.rebase fixes).unwrapLabels a = .ok u := (unwrapLabels_rebase a).trans hu
  have hv' : (m.rebase fixes).unwrapLabels b = .ok v := (unwrapLabels_rebase b).trans hv
  have hrules : p.rules.reverse.find? ((m.rebase fixes).fits
        (n.rebase (m.rebase fixes).text.toList (accepted m.text.toList fixes))
        (n'.rebase (m.rebase fixes).text.toList (accepted m.text.toList fixes))) =
      p.rules.reverse.find? (m.fits n n') := by
    refine List.find?_congr fun r hr => ?_
    obtain ⟨hprevious, hnext⟩ := hsizes r (List.mem_reverse.1 hr)
    rw [side_matches?_eq hu hn, side_matches?_eq hu' (node?_rebase_of_eq hn)] at hprevious
    rw [side_matches?_eq hv hn', side_matches?_eq hv' (node?_rebase_of_eq hn')] at hnext
    exact fits_rebase hm.placed hs (fun h => by simpa [TypeSpec.types] using hprevious h)
      fun h => by simpa [TypeSpec.types] using hnext h
  rw [resolve_eq hu hn hv hn', ← hrules]
  exact resolve_eq hu' (node?_rebase_of_eq hn) hv' (node?_rebase_of_eq hn') p

theorem resolve_rebase (hm : m.Coherent NodeKind.isListItem) (hlab : m.LabelsHold) {p : Policy}
    (hlines : ∀ r ∈ p.rules, .multilineBlockLike ∉ r.previous.types ∧
      .multilineBlockLike ∉ r.next.types) {a b : Nat} (hab : m.tree.Adjacent a b) :
    p.resolve (m.rebase fixes) a b = p.resolve m a b :=
  resolve_rebase_of_matches hs hm hlab hab fun r hr =>
    ⟨fun h => absurd h (hlines r hr).1, fun h => absurd h (hlines r hr).2⟩

end Coherent

end coherent

/-! ### Lines between tokens -/

/-- The lines between two tokens are those of the text between them.  In the edited text they are
those of what the edits between the tokens make of it. -/
theorem exists_lines_between (hp : m.Placed) (hs : m.tokens.Spares (accepted m.text.toList fixes))
    {i j : Nat} {t u : Token} (hij : i < j) (ht : m.token? i = some t) (hu : m.token? j = some u) :
    ∃ t' u' mid mid', (m.rebase fixes).token? i = some t' ∧ (m.rebase fixes).token? j = some u' ∧
      Text.byteLength mid = u.span.start - t.span.stop ∧
      Rewrites t.span.stop mid ((accepted m.text.toList fixes).filter fun r =>
        !r.isPassed true t.span.stop && r.isPassed false u.span.start) mid' ∧
      u.span.startPos.line = t.span.stopPos.line + mid.count '\n' ∧
      u'.span.startPos.line = t'.span.stopPos.line + mid'.count '\n' := by
  have hle := hp.separate.apart hij ht hu
  have ht' := token?_rebase_of_eq fixes ht
  have hu' := token?_rebase_of_eq fixes hu
  have hplaced := Placed.rebase hp hs
  obtain ⟨xs, ys, e, hx, -⟩ := Text.positionAt?_eq_some_iff.1 (hp.stop ht)
  obtain ⟨zs, ws, e', hz, -⟩ := Text.positionAt?_eq_some_iff.1 (hp.start hu)
  obtain ⟨mid, rfl, rfl⟩ := Text.exists_between (e.symm.trans e') (by omega)
  obtain ⟨xs', ys', enew, hx', hrewx, -⟩ := split_stop hp hs ht e hx
  obtain ⟨zs', ws', enew', hz', hrewz, -⟩ := split_start hp hs hu e' hz
  -- What stands in front of the second token is cut at the end of the first one.
  have hcut : 0 + Text.byteLength xs = t.span.stop := by omega
  obtain ⟨xs₂, mid', rfl, -, hrewx₂, hmid⟩ := hrewz.split (e := true) rfl hcut
    fun r hr hpass => by
      have hr := (List.mem_filter.1 hr).1
      obtain ⟨heq, hstop⟩ := isPassed_iff hp hs ht hr
      have := hstop (heq ▸ hpass)
      have := hp.separate.width ht
      omega
  have hfilter : ((accepted m.text.toList fixes).filter (isPassed false u.span.start)).filter
      (isPassed true t.span.stop) =
        (accepted m.text.toList fixes).filter (isPassed true t.span.stop) := by
    rw [List.filter_filter]
    apply List.filter_congr
    intro r _
    have := isPassed_start hle r
    cases h : r.isPassed true t.span.stop <;> simp_all
  rw [hfilter] at hrewx₂
  obtain rfl : xs₂ = xs' := by rw [← hrewx₂.splice_eq, ← hrewx.splice_eq]
  rw [List.filter_filter] at hmid
  refine ⟨_, _, mid, mid', ht', hu', ?_, hmid, ?_, ?_⟩
  · rw [Text.byteLength_append] at hz
    omega
  · rw [Text.line_of_split e hx (hp.stop ht), Text.line_of_split e' hz (hp.start hu),
      List.count_append]
    omega
  · rw [Text.line_of_split enew hx' (hplaced.stop ht'),
      Text.line_of_split enew' hz' (hplaced.start hu'), List.count_append]
    omega

section lines

variable (hp : m.Placed) (hs : m.tokens.Spares (accepted m.text.toList fixes)) {i j : Nat}
  {t u : Token} (hij : i < j) (ht : m.token? i = some t) (hu : m.token? j = some u)
include hp hs hij ht hu

theorem exists_lines_of_none (hnone : ∀ r ∈ accepted m.text.toList fixes,
      t.span.stop ≤ r.start → ¬r.start ≤ u.span.start) :
    ∃ t' u' d, (m.rebase fixes).token? i = some t' ∧ (m.rebase fixes).token? j = some u' ∧
      u.span.startPos.line = t.span.stopPos.line + d ∧
      u'.span.startPos.line = t'.span.stopPos.line + d := by
  obtain ⟨t', u', mid, mid', ht', hu', -, hrew, hline, hline'⟩ :=
    exists_lines_between hp hs hij ht hu
  have hnil : ((accepted m.text.toList fixes).filter fun r =>
      !r.isPassed true t.span.stop && r.isPassed false u.span.start) = [] := by
    refine List.filter_eq_nil_iff.2 fun r hr hpass => ?_
    simp only [isPassed, if_true, Bool.false_eq_true, if_false, Bool.and_eq_true,
      Bool.not_eq_true', decide_eq_false_iff_not, decide_eq_true_eq] at hpass
    exact hnone r hr (by omega) hpass.2
  rw [hnil] at hrew
  cases hrew
  exact ⟨t', u', _, ht', hu', hline, hline'⟩

variable {r : Replacement} (hr : r ∈ accepted m.text.toList fixes) (hstart : t.span.stop ≤ r.start)
  (hstop : r.start ≤ u.span.start) (hone : ∀ x ∈ accepted m.text.toList fixes,
    t.span.stop ≤ x.start → x.start ≤ u.span.start → x.start = r.start)
include hr hstart hstop hone

theorem exists_lines_of_one :
    ∃ t' u' mid mid', (m.rebase fixes).token? i = some t' ∧ (m.rebase fixes).token? j = some u' ∧
      Text.byteLength mid = u.span.start - t.span.stop ∧ Rewrites t.span.stop mid [r] mid' ∧
      u.span.startPos.line = t.span.stopPos.line + mid.count '\n' ∧
      u'.span.startPos.line = t'.span.stopPos.line + mid'.count '\n' := by
  obtain ⟨t', u', mid, mid', ht', hu', hlen, hrew, hline, hline'⟩ :=
    exists_lines_between hp hs hij ht hu
  have hpass : ∀ x : Replacement, (!x.isPassed true t.span.stop && x.isPassed false u.span.start) =
      true ↔ t.span.stop ≤ x.start ∧ x.start ≤ u.span.start := by
    intro x
    simp only [isPassed, if_true, Bool.false_eq_true, if_false, Bool.and_eq_true,
      Bool.not_eq_true', decide_eq_false_iff_not, decide_eq_true_eq, Nat.not_lt]
  rw [filter_accepted_eq hr ((hpass r).2 ⟨hstart, hstop⟩) fun x hx hxpass =>
    hone x hx ((hpass x).1 hxpass).1 ((hpass x).1 hxpass).2] at hrew
  exact ⟨t', u', mid, mid', ht', hu', hlen, hrew, hline, hline'⟩

theorem exists_lines_of_insertion (hins : r.stop = r.start) :
    ∃ t' u' d, (m.rebase fixes).token? i = some t' ∧ (m.rebase fixes).token? j = some u' ∧
      u.span.startPos.line = t.span.stopPos.line + d ∧
      u'.span.startPos.line = t'.span.stopPos.line + (d + r.newText.toList.count '\n') := by
  obtain ⟨t', u', mid, mid', ht', hu', -, hrew, hline, hline'⟩ :=
    exists_lines_of_one hp hs hij ht hu hr hstart hstop hone
  have hcount := hrew.count_newline (by simpa using hins)
  rw [List.map_singleton, List.sum_singleton] at hcount
  exact ⟨t', u', _, ht', hu', hline, hcount ▸ hline'⟩

theorem exists_lines_of_removal (hfirst : r.start = t.span.stop) (hlast : r.stop = u.span.start)
    (hempty : r.newText.toList = []) :
    ∃ t' u', (m.rebase fixes).token? i = some t' ∧ (m.rebase fixes).token? j = some u' ∧
      u'.span.startPos.line = t'.span.stopPos.line := by
  obtain ⟨t', u', mid, mid', ht', hu', hlen, hrew, hline, hline'⟩ :=
    exists_lines_of_one hp hs hij ht hu hr hstart hstop hone
  have hle := hp.separate.apart hij ht hu
  have hbytes := hrew.byteLength
  simp only [List.map_cons, List.map_nil, List.sum_cons, List.sum_nil, hempty,
    Text.byteLength_nil] at hbytes
  have hzero : Text.byteLength mid' = 0 := by omega
  rw [Text.eq_nil_of_byteLength hzero] at hline'
  exact ⟨t', u', ht', hu', hline'⟩

end lines

end SourceModel

end Interline
