import Mathlib
import Interline.Proofs.Coherence
import Interline.Proofs.Splicing

/-! # Models of edited texts

`SourceModel.rebase` carries a model over to the text that its own fixes make of it: the same tokens
and the same tree, offsets moved by the edit, and lines and columns read off the new text.

If no accepted edit reaches into a token (`Spares`), the tokens keep their texts (`slice?_rebase`),
stay apart and stand where their positions say (`Placed.rebase`), and what lies outside of them is
white again (`Spaced.rebase`).

If the edits are insertions, a token moves down by the line feeds put in before it
(`token?_rebase_lines`). -/

namespace Interline

open Replacement

/-! ### Moving spans -/

/-- A span in the text that edits make. -/
def Span.rebase (text : List Char) (taken : List Replacement) (s : Span) : Span :=
  Text.spanAt text (moved false 0 taken s.start) (moved true 0 taken s.stop)

def Token.rebase (text : List Char) (taken : List Replacement) (t : Token) : Token :=
  { t with span := t.span.rebase text taken }

def TokenStore.rebase (text : List Char) (taken : List Replacement) (s : TokenStore) :
    TokenStore where
  toList := s.toList.map (Token.rebase text taken)
  sorted := List.pairwise_map.2 (s.sorted.imp fun h => moved_mono _ h taken 0)

def Node.rebase (text : List Char) (taken : List Replacement) (n : Node) : Node :=
  { n with span := n.span.rebase text taken }

def SyntaxTree.rebase (text : List Char) (taken : List Replacement) (t : SyntaxTree) :
    SyntaxTree where
  nodes := t.nodes.map (Node.rebase text taken)
  child_above := by
    intro id c n hn hc
    rw [Array.getElem?_map] at hn
    obtain ⟨k, hk, rfl⟩ := Option.map_eq_some_iff.1 hn
    rw [Array.size_map]
    exact t.child_above id c k hk hc

/-- The model of the text that fixes make of a text. -/
def SourceModel.rebase (m : SourceModel) (fixes : List Replacement) : SourceModel :=
  let taken := accepted m.text.toList fixes
  let text := (applyAll m.text fixes).text
  { text := text
    tokens := m.tokens.rebase text.toList taken
    tree := m.tree.rebase text.toList taken }

/-! ### Added lines -/

namespace Replacement

/-- Line feeds that edits put in before a place. -/
def addedLines (taken : List Replacement) (place : Nat) : Nat :=
  ((taken.filter (isPassed true place)).map fun r => r.newText.toList.count '\n').sum

theorem addedLines_cons (r : Replacement) (taken : List Replacement) (place : Nat) :
    addedLines (r :: taken) place =
      (if r.isPassed true place then r.newText.toList.count '\n' else 0) +
        addedLines taken place := by
  unfold addedLines
  rw [List.filter_cons]
  split <;> simp

theorem addedLines_mono {p q : Nat} (h : p ≤ q) : ∀ taken : List Replacement,
    addedLines taken p ≤ addedLines taken q
  | [] => Nat.le_refl _
  | r :: taken => by
      have ih := addedLines_mono h taken
      rw [addedLines_cons, addedLines_cons]
      by_cases hp : r.isPassed true p = true
      · rw [if_pos hp, if_pos (isPassed_mono h r hp)]
        omega
      · rw [if_neg hp]
        omega

/-- Between two places an edit adds its line feeds. -/
theorem addedLines_add {p q : Nat} {r : Replacement} (hp : p ≤ r.start) (hq : r.start < q) :
    ∀ {taken : List Replacement}, r ∈ taken →
      addedLines taken p + r.newText.toList.count '\n' ≤ addedLines taken q
  | x :: taken, hr => by
      have hpq : p ≤ q := by omega
      rw [addedLines_cons, addedLines_cons]
      rcases List.mem_cons.1 hr with rfl | hr
      · have := addedLines_mono hpq taken
        rw [if_neg (by simp [isPassed]; omega), if_pos (by simp [isPassed]; omega)]
        omega
      · have ih := addedLines_add hp hq hr
        by_cases hx : x.isPassed true p = true
        · rw [if_pos hx, if_pos (isPassed_mono hpq x hx)]
          omega
        · rw [if_neg hx]
          omega

theorem exists_of_addedLines_lt {p q : Nat} : ∀ {taken : List Replacement},
    addedLines taken p < addedLines taken q → ∃ r ∈ taken, p ≤ r.start ∧ r.start < q
  | [], h => absurd h (Nat.lt_irrefl _)
  | x :: taken, h => by
      by_cases hx : p ≤ x.start ∧ x.start < q
      · exact ⟨x, List.mem_cons_self, hx⟩
      · rw [addedLines_cons, addedLines_cons] at h
        have hsame : (if x.isPassed true q then x.newText.toList.count '\n' else 0) ≤
            if x.isPassed true p then x.newText.toList.count '\n' else 0 := by
          simp only [isPassed, if_true, decide_eq_true_eq]
          by_cases hxp : x.start < p
          · rw [if_pos hxp]
            split <;> omega
          · rw [if_neg hxp, if_neg (by omega)]
        have hlt : addedLines taken p < addedLines taken q := by omega
        obtain ⟨r, hr, h⟩ := exists_of_addedLines_lt hlt
        exact ⟨r, List.mem_cons_of_mem _ hr, h⟩

end Replacement

/-! ### Trees -/

namespace SyntaxTree

variable {t : SyntaxTree} {text : List Char} {taken : List Replacement}

theorem node?_rebase (i : Nat) :
    (t.rebase text taken).node? i = (t.node? i).map (Node.rebase text taken) :=
  Array.getElem?_map

theorem isStatement_rebase (i : Nat) : (t.rebase text taken).isStatement i = t.isStatement i := by
  unfold isStatement
  rw [node?_rebase]
  cases t.node? i <;> rfl

theorem isItem_rebase (i : Nat) : (t.rebase text taken).isItem i = t.isItem i := by
  unfold isItem
  rw [node?_rebase]
  cases t.node? i <;> rfl

theorem isChild_rebase (a c : Nat) : (t.rebase text taken).IsChild a c ↔ t.IsChild a c := by
  unfold IsChild
  rw [node?_rebase]
  constructor
  · rintro ⟨n, hn, hc⟩
    obtain ⟨k, hk, rfl⟩ := Option.map_eq_some_iff.1 hn
    exact ⟨k, hk, hc⟩
  · rintro ⟨n, hn, hc⟩
    exact ⟨n.rebase text taken, by rw [hn]; rfl, hc⟩

theorem Linked.rebase (hl : t.Linked) : (t.rebase text taken).Linked where
  root := by
    obtain ⟨n, hn, hk, hp⟩ := hl.root
    exact ⟨n.rebase text taken, by rw [node?_rebase, hn]; rfl, hk, hp⟩
  parent_of_child h := by
    obtain ⟨k, hk, hp⟩ := hl.parent_of_child ((isChild_rebase _ _).1 h)
    exact ⟨k.rebase text taken, by rw [node?_rebase, hk]; rfl, hp⟩
  child_of_parent h hp := by
    rw [node?_rebase] at h
    obtain ⟨k, hk, rfl⟩ := Option.map_eq_some_iff.1 h
    exact (isChild_rebase _ _).2 (hl.child_of_parent hk hp)
  eq_root h hp := by
    rw [node?_rebase] at h
    obtain ⟨k, hk, rfl⟩ := Option.map_eq_some_iff.1 h
    exact hl.eq_root hk hp
  sorted h := by
    rw [node?_rebase] at h
    obtain ⟨k, hk, rfl⟩ := Option.map_eq_some_iff.1 h
    have hsorted := hl.sorted hk
    exact hsorted

theorem adjacent_rebase (p n : Nat) : (t.rebase text taken).Adjacent p n ↔ t.Adjacent p n := by
  unfold Adjacent
  simp only [isItem_rebase, node?_rebase, Option.map_eq_some_iff]
  constructor
  · rintro ⟨q, _, earlier, between, later, ⟨list, hq, rfl⟩, h⟩
    exact ⟨q, list, earlier, between, later, hq, h⟩
  · rintro ⟨q, list, earlier, between, later, hq, h⟩
    exact ⟨q, _, earlier, between, later, ⟨list, hq, rfl⟩, h⟩

theorem subtree_rebase (a : Nat) : (t.rebase text taken).subtree a = t.subtree a := by
  fun_induction subtree t a with
  | case1 a hn =>
      rw [subtree]
      split
      · rfl
      next n' hn' =>
        rw [node?_rebase, hn] at hn'
        cases hn'
  | case2 a n hn ih =>
      have hn' : (t.rebase text taken).node? a = some (n.rebase text taken) := by
        rw [node?_rebase, hn]
        rfl
      rw [subtree_eq hn', List.flatMap_subtype (g := t.subtree) (by intro x hx; rfl),
        List.unattach_attach]
      congr 1
      exact List.flatMap_congr fun c hc => ih ⟨c, hc⟩

theorem precursor?_rebase (n : Nat) : (t.rebase text taken).precursor? n = t.precursor? n := by
  have hitem : (t.rebase text taken).isItem = t.isItem := funext isItem_rebase
  unfold precursor? lastItem?
  simp only [hitem, node?_rebase, Option.bind_eq_bind, Option.bind_map]
  rfl

theorem pairs_rebase : (t.rebase text taken).pairs = t.pairs := by
  have hprecursor : (t.rebase text taken).precursor? = t.precursor? := funext precursor?_rebase
  unfold pairs pairsAmong
  rw [subtree_rebase, hprecursor]

end SyntaxTree

/-! ### Tokens that are left alone -/

namespace TokenStore

variable {s : TokenStore} {text : List Char} {taken : List Replacement}

theorem get?_rebase (i : Nat) :
    (s.rebase text taken).get? i = (s.get? i).map (Token.rebase text taken) :=
  List.getElem?_map

theorem countsAt_rebase {c : Bool} {i : Nat} :
    (s.rebase text taken).CountsAt c i ↔ s.CountsAt c i := by
  unfold CountsAt
  simp only [get?_rebase, Option.map_eq_some_iff]
  constructor
  · rintro ⟨_, ⟨t, ht, rfl⟩, hc⟩
    exact ⟨t, ht, hc⟩
  · rintro ⟨t, ht, hc⟩
    exact ⟨_, ⟨t, ht, rfl⟩, hc⟩

theorem after_rebase (i : Nat) (c : Bool) : (s.rebase text taken).after i c = s.after i c := by
  ext j
  rw [after_eq_some_iff, after_eq_some_iff]
  simp only [countsAt_rebase]

theorem before_rebase (i : Nat) (c : Bool) : (s.rebase text taken).before i c = s.before i c := by
  ext j
  rw [before_eq_some_iff, before_eq_some_iff]
  simp only [countsAt_rebase]

theorem Separate.addedLines_le (hs : s.Separate) (taken : List Replacement) {i j : Nat}
    {t u : Token} (hij : i ≤ j) (ht : s.get? i = some t) (hu : s.get? j = some u) :
    addedLines taken t.span.stop ≤ addedLines taken u.span.stop := by
  exact addedLines_mono (hs.stop_le hij ht hu) taken

/-- No edit reaches into a token. -/
def Spares (s : TokenStore) (taken : List Replacement) : Prop :=
  ∀ r ∈ taken, ∀ {i : Nat} {t : Token}, s.get? i = some t →
    r.stop ≤ t.span.start ∨ t.span.stop ≤ r.start

end TokenStore

namespace SourceModel

variable {m : SourceModel} {fixes : List Replacement}

theorem text_rebase : (m.rebase fixes).text.toList =
    splice 0 m.text.toList (accepted m.text.toList fixes) := by
  unfold rebase applyAll
  exact String.toList_ofList

theorem rewrites_rebase : Rewrites 0 m.text.toList (accepted m.text.toList fixes)
    (m.rebase fixes).text.toList := by
  rw [text_rebase]
  exact rewrites_accepted _ _

theorem token?_rebase (i : Nat) : (m.rebase fixes).token? i = (m.token? i).map
    (Token.rebase (m.rebase fixes).text.toList (accepted m.text.toList fixes)) :=
  TokenStore.get?_rebase i

theorem token?_rebase_of_eq (fixes : List Replacement) {i : Nat} {t : Token}
    (ht : m.token? i = some t) :
    (m.rebase fixes).token? i =
      some (t.rebase (m.rebase fixes).text.toList (accepted m.text.toList fixes)) := by
  rw [token?_rebase, ht]
  rfl

theorem token?_rebase_eq_some {i : Nat} {t' : Token} (h : (m.rebase fixes).token? i = some t') :
    ∃ t, m.token? i = some t ∧
      t' = t.rebase (m.rebase fixes).text.toList (accepted m.text.toList fixes) := by
  rw [token?_rebase] at h
  obtain ⟨t, ht, e⟩ := Option.map_eq_some_iff.1 h
  exact ⟨t, ht, e.symm⟩

section spared

variable (hp : m.Placed) (hs : m.tokens.Spares (accepted m.text.toList fixes))
include hp hs

theorem isPassed_iff {i : Nat} {t : Token} (ht : m.token? i = some t) {r : Replacement}
    (hr : r ∈ accepted m.text.toList fixes) :
    (r.isPassed true t.span.stop = r.isPassed false t.span.start) ∧
      (r.isPassed false t.span.start = true → r.stop ≤ t.span.start) := by
  have hfit := start_le_of_fits (mem_accepted hr).2
  have hw := hp.separate.width ht
  have hspare := hs r hr ht
  simp only [isPassed, if_true, Bool.false_eq_true, if_false, decide_eq_true_eq, decide_eq_decide]
  omega

/-- A token moves as a whole. -/
theorem moved_stop {i : Nat} {t : Token} (ht : m.token? i = some t) :
    moved true 0 (accepted m.text.toList fixes) t.span.stop =
      moved false 0 (accepted m.text.toList fixes) t.span.start + t.span.length := by
  have hw := hp.separate.width ht
  have e : t.span.start + t.span.length = t.span.stop := by
    unfold Span.length
    omega
  conv_lhs => rw [← e]
  apply moved_add (Nat.zero_le _)
  intro r hr
  rw [e]
  exact isPassed_iff hp hs ht hr

/-- What a text is cut into at the start of a token, before and after an edit. -/
theorem split_start {i : Nat} {t : Token} (ht : m.token? i = some t) {xs ys : List Char}
    (e : m.text.toList = xs ++ ys) (hx : Text.byteLength xs = t.span.start) :
    ∃ xs' ys', (m.rebase fixes).text.toList = xs' ++ ys' ∧
      Text.byteLength xs' = moved false 0 (accepted m.text.toList fixes) t.span.start ∧
      Rewrites 0 xs ((accepted m.text.toList fixes).filter (isPassed false t.span.start)) xs' ∧
      Rewrites t.span.start ys
        ((accepted m.text.toList fixes).filter fun r => !r.isPassed false t.span.start) ys' :=
  rewrites_rebase.split e (by omega) fun _ hr => (isPassed_iff hp hs ht hr).2

theorem split_stop {i : Nat} {t : Token} (ht : m.token? i = some t) {xs ys : List Char}
    (e : m.text.toList = xs ++ ys) (hx : Text.byteLength xs = t.span.stop) :
    ∃ xs' ys', (m.rebase fixes).text.toList = xs' ++ ys' ∧
      Text.byteLength xs' = moved true 0 (accepted m.text.toList fixes) t.span.stop ∧
      Rewrites 0 xs ((accepted m.text.toList fixes).filter (isPassed true t.span.stop)) xs' ∧
      Rewrites t.span.stop ys
        ((accepted m.text.toList fixes).filter fun r => !r.isPassed true t.span.stop) ys' := by
  apply rewrites_rebase.split e (by omega)
  intro r hr hpass
  obtain ⟨heq, hle⟩ := isPassed_iff hp hs ht hr
  have := hle (heq ▸ hpass)
  have := hp.separate.width ht
  omega

/-- **Spared tokens keep their texts.** -/
theorem slice?_rebase {i : Nat} {t : Token} (ht : m.token? i = some t) :
    Text.slice? (m.rebase fixes).text.toList
        (moved false 0 (accepted m.text.toList fixes) t.span.start)
        (moved true 0 (accepted m.text.toList fixes) t.span.stop) =
      Text.slice? m.text.toList t.span.start t.span.stop := by
  have hw := hp.separate.width ht
  obtain ⟨xs, ys, e, hx, -⟩ := Text.positionAt?_eq_some_iff.1 (hp.start ht)
  obtain ⟨zs, ws, e', hz, -⟩ := Text.positionAt?_eq_some_iff.1 (hp.stop ht)
  obtain ⟨mid, rfl, rfl⟩ := Text.exists_between (e.symm.trans e') (by omega)
  rw [Text.byteLength_append] at hz
  obtain ⟨xs', ys', enew, hx', -, hy⟩ := split_start hp hs ht e hx
  -- Behind the start of the token, the first edit comes behind its end.
  have hbehind : ∀ r ∈ (accepted m.text.toList fixes).filter
      fun r => !r.isPassed false t.span.start, ¬r.isPassed true t.span.stop = true := by
    intro r hr hpass
    rw [List.mem_filter] at hr
    obtain ⟨heq, -⟩ := isPassed_iff hp hs ht hr.1
    rw [← heq, hpass] at hr
    exact absurd hr.2 (by simp)
  have hplace : t.span.start + Text.byteLength mid = t.span.stop := by omega
  obtain ⟨mid', ws', rfl, -, hmid, -⟩ := hy.split rfl hplace fun r hr hpass =>
    absurd hpass (hbehind r hr)
  have hnone := List.filter_eq_nil_iff.2 hbehind
  rw [hnone] at hmid
  cases hmid
  rw [Text.slice?_eq_some_iff.2 ⟨xs, ws, by rw [e, List.append_assoc], hx, by omega⟩,
    Text.slice?_eq_some_iff]
  refine ⟨xs', ws', by rw [enew, List.append_assoc], hx', ?_⟩
  have := moved_stop hp hs ht
  unfold Span.length at this
  omega

theorem Placed.rebase : (m.rebase fixes).Placed where
  separate := by
    refine ⟨?_, ?_⟩
    · intro i t' ht'
      obtain ⟨t, ht, rfl⟩ := token?_rebase_eq_some ht'
      have := hp.separate.width ht
      have := moved_stop hp hs ht
      unfold Span.length at this
      simp only [Token.rebase, Span.rebase, Text.spanAt]
      omega
    · intro i j a' b' hij ha' hb'
      obtain ⟨a, ha, rfl⟩ := token?_rebase_eq_some ha'
      obtain ⟨b, hb, rfl⟩ := token?_rebase_eq_some hb'
      have hle := hp.separate.apart hij ha hb
      exact moved_apart hle _ _
  start := by
    intro i t' ht'
    obtain ⟨t, ht, rfl⟩ := token?_rebase_eq_some ht'
    obtain ⟨xs, ys, e, hx, -⟩ := Text.positionAt?_eq_some_iff.1 (hp.start ht)
    obtain ⟨xs', ys', enew, hx', -⟩ := split_start hp hs ht e hx
    simp only [Token.rebase, Span.rebase, Text.spanAt]
    rw [Text.positionAt?_eq_some_iff.2 ⟨xs', ys', enew, hx', rfl⟩]
    rfl
  stop := by
    intro i t' ht'
    obtain ⟨t, ht, rfl⟩ := token?_rebase_eq_some ht'
    obtain ⟨xs, ys, e, hx, -⟩ := Text.positionAt?_eq_some_iff.1 (hp.stop ht)
    obtain ⟨xs', ys', enew, hx', -⟩ := split_stop hp hs ht e hx
    simp only [Token.rebase, Span.rebase, Text.spanAt]
    rw [Text.positionAt?_eq_some_iff.2 ⟨xs', ys', enew, hx', rfl⟩]
    rfl

/-- What lies outside of spared tokens is white again, if the edits put nothing else in. -/
theorem Spaced.rebase {white : Char → Bool} (hw : m.Spaced white)
    (hnew : ∀ r ∈ accepted m.text.toList fixes, ∀ c ∈ r.newText.toList, white c = true) :
    (m.rebase fixes).Spaced white := by
  intro n c hc
  rcases rewrites_rebase.origin hc with ⟨r, hr, hcr⟩ | ⟨o, -, ho, rfl, hout⟩
  · exact .inl (hnew r hr c hcr)
  rw [Nat.sub_zero] at ho
  rcases hw ho with hwhite | ⟨i, t, ht, hstart, hstop⟩
  · exact .inl hwhite
  · right
    refine ⟨i, t.rebase (m.rebase fixes).text.toList (accepted m.text.toList fixes),
      by rw [token?_rebase, ht]; rfl, ?_, ?_⟩
    · exact moved_mono _ hstart _ _
    · have hlen := moved_stop hp hs ht
      have hmid : moved false 0 (accepted m.text.toList fixes) (t.span.start + (o - t.span.start)) =
          moved false 0 (accepted m.text.toList fixes) t.span.start + (o - t.span.start) := by
        apply moved_add (Nat.zero_le _)
        intro r hr
        have := isPassed_iff hp hs ht hr
        have := hs r hr ht
        have := start_le_of_fits (mem_accepted hr).2
        simp only [isPassed, Bool.false_eq_true, if_false, decide_eq_true_eq, decide_eq_decide]
        omega
      rw [Nat.add_sub_cancel' hstart] at hmid
      unfold Span.length at hlen
      simp only [Token.rebase, Span.rebase, Text.spanAt]
      omega

end spared

/-! ### Insertions -/

section insertions

variable (hp : m.Placed) (hs : m.tokens.Spares (accepted m.text.toList fixes))
include hp hs

theorem filter_isPassed {i : Nat} {t : Token} (ht : m.token? i = some t) :
    (accepted m.text.toList fixes).filter (isPassed false t.span.start) =
      (accepted m.text.toList fixes).filter (isPassed true t.span.stop) :=
  List.filter_congr fun _ hr => (isPassed_iff hp hs ht hr).1.symm

theorem token?_rebase_lines (hins : ∀ r ∈ fixes, r.stop = r.start) {i : Nat} {t : Token}
    (ht : m.token? i = some t) :
    ∃ t', (m.rebase fixes).token? i = some t' ∧
      t' = t.rebase (m.rebase fixes).text.toList (accepted m.text.toList fixes) ∧
      t'.span.startPos.line =
        t.span.startPos.line + addedLines (accepted m.text.toList fixes) t.span.stop ∧
      t'.span.stopPos.line =
        t.span.stopPos.line + addedLines (accepted m.text.toList fixes) t.span.stop := by
  have hins' : ∀ {q : Replacement → Bool}, ∀ r ∈ (accepted m.text.toList fixes).filter q,
      r.stop = r.start :=
    fun r hr => hins r (mem_accepted (List.mem_filter.1 hr).1).1
  have ht' := token?_rebase_of_eq fixes ht
  have hplaced := Placed.rebase hp hs
  refine ⟨_, ht', rfl, ?_, ?_⟩
  · obtain ⟨xs, ys, e, hx, hpos⟩ := Text.positionAt?_eq_some_iff.1 (hp.start ht)
    obtain ⟨xs', ys', enew, hx', hrew, -⟩ := split_start hp hs ht e hx
    rw [Text.line_of_split enew hx' (hplaced.start ht'), Text.line_of_split e hx (hp.start ht),
      hrew.count_newline hins', filter_isPassed hp hs ht]
    unfold addedLines
    omega
  · obtain ⟨xs, ys, e, hx, hpos⟩ := Text.positionAt?_eq_some_iff.1 (hp.stop ht)
    obtain ⟨xs', ys', enew, hx', hrew, -⟩ := split_stop hp hs ht e hx
    rw [Text.line_of_split enew hx' (hplaced.stop ht'), Text.line_of_split e hx (hp.stop ht),
      hrew.count_newline hins']
    unfold addedLines
    omega

end insertions

end SourceModel

end Interline
