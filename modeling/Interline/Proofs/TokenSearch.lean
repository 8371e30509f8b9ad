import Mathlib
import Interline.TokenStore

/-! # Searches in the token stream

The searches of `TokenStore` stop early, which is right because tokens do not overlap.  `Separate`
is that property; under it each search finds the token that a look at all of them would find:

* `firstIn_eq_some_iff` and `lastIn_eq_some_iff`: the least and the greatest index of a code token
  inside a span;
* `before_eq_some_iff` and `after_eq_some_iff`: the nearest index on either side, for any list;
* `any_between_iff`: what stands strictly between two indices.

Everything rests on prefixes of lists on which a predicate cannot come back once it fails
(`getElem?_takeWhile_iff`). -/

namespace Interline

/-! ### Prefixes -/

section prefixes

variable {α : Type} {p : α → Bool}

/-- The members of a prefix that is cut where a predicate fails for good. -/
theorem getElem?_takeWhile_iff {l : List α} (h : l.Pairwise fun a b => p b = true → p a = true)
    {i : Nat} {x : α} : (l.takeWhile p)[i]? = some x ↔ l[i]? = some x ∧ p x = true := by
  induction l generalizing i with
  | nil => simp
  | cons a l ih =>
      obtain ⟨ha, hl⟩ := List.pairwise_cons.1 h
      cases hp : p a with
      | true =>
          rw [List.takeWhile_cons_of_pos hp]
          cases i with
          | zero =>
              simp only [List.getElem?_cons_zero, Option.some.injEq]
              exact ⟨fun e => ⟨e, e ▸ hp⟩, fun e => e.1⟩
          | succ i => simpa only [List.getElem?_cons_succ] using ih hl
      | false =>
          rw [List.takeWhile_cons_of_neg (by simp [hp])]
          have hx : ∀ y ∈ a :: l, p y = false := by
            intro y hy
            rcases List.mem_cons.1 hy with rfl | hy
            · exact hp
            · by_contra hne
              exact absurd (ha y hy (by simpa using hne)) (by simp [hp])
          simp only [List.getElem?_nil, reduceCtorEq, false_iff, not_and]
          intro hi
          simp [hx x (List.mem_of_getElem? hi)]

theorem lt_length_takeWhile_iff {l : List α} (h : l.Pairwise fun a b => p b = true → p a = true)
    {i : Nat} {x : α} (hx : l[i]? = some x) : i < (l.takeWhile p).length ↔ p x = true := by
  constructor
  · intro hi
    obtain ⟨y, hy⟩ : ∃ y, (l.takeWhile p)[i]? = some y := ⟨_, List.getElem?_eq_getElem hi⟩
    obtain ⟨hy, hp⟩ := (getElem?_takeWhile_iff h).1 hy
    rw [hx] at hy
    cases hy
    exact hp
  · intro hp
    exact (List.getElem?_eq_some_iff.1 ((getElem?_takeWhile_iff h).2 ⟨hx, hp⟩)).1

theorem findIdx?_eq_some_iff {l : List α} {k : Nat} :
    l.findIdx? p = some k ↔ (∃ x, l[k]? = some x ∧ p x = true) ∧
      ∀ j < k, ∀ y, l[j]? = some y → p y = false := by
  rw [List.findIdx?_eq_some_iff_getElem]
  constructor
  · rintro ⟨hk, hp, hlt⟩
    refine ⟨⟨l[k], List.getElem?_eq_getElem hk, hp⟩, fun j hj y hy => ?_⟩
    obtain ⟨hj', rfl⟩ := List.getElem?_eq_some_iff.1 hy
    simpa using hlt j hj
  · rintro ⟨⟨x, hx, hp⟩, hlt⟩
    obtain ⟨hk, rfl⟩ := List.getElem?_eq_some_iff.1 hx
    refine ⟨hk, hp, fun j hj => ?_⟩
    simp [hlt j hj l[j] (List.getElem?_eq_getElem (hj.trans hk))]

end prefixes

namespace TokenStore

variable {s : TokenStore}

/-! ### Tokens that do not overlap -/

/-- Tokens have width, and each ends before the next one starts. -/
structure Separate (s : TokenStore) : Prop where
  width : ∀ {i : Nat} {t : Token}, s.get? i = some t → t.span.start < t.span.stop
  apart : ∀ {i j : Nat} {a b : Token}, i < j → s.get? i = some a → s.get? j = some b →
    a.span.stop ≤ b.span.start

/-- Tokens start one behind the other. -/
def Ascending (s : TokenStore) : Prop := s.toList.Pairwise fun a b => a.span.start < b.span.start

theorem get?_lt {i : Nat} {t : Token} (h : s.get? i = some t) : i < s.size :=
  (List.getElem?_eq_some_iff.1 h).1

theorem get?_isSome {i : Nat} (h : i < s.size) : ∃ t, s.get? i = some t :=
  ⟨s.toList[i], List.getElem?_eq_getElem h⟩

theorem pairwise_of_get? {r : Token → Token → Prop}
    (h : ∀ {i j : Nat} {a b : Token}, i < j → s.get? i = some a → s.get? j = some b → r a b) :
    s.toList.Pairwise r :=
  List.pairwise_iff_getElem.2 fun _ _ hi hj hij =>
    h hij (List.getElem?_eq_getElem hi) (List.getElem?_eq_getElem hj)

theorem Ascending.start_lt (h : s.Ascending) {i j : Nat} {a b : Token} (hij : i < j)
    (ha : s.get? i = some a) (hb : s.get? j = some b) : a.span.start < b.span.start := by
  obtain ⟨hi, rfl⟩ := List.getElem?_eq_some_iff.1 ha
  obtain ⟨hj, rfl⟩ := List.getElem?_eq_some_iff.1 hb
  exact List.pairwise_iff_getElem.1 h i j hi hj hij

namespace Separate

variable (hs : s.Separate)
include hs

theorem start_lt {i j : Nat} {a b : Token} (hij : i < j) (ha : s.get? i = some a)
    (hb : s.get? j = some b) : a.span.start < b.span.start :=
  Nat.lt_of_lt_of_le (hs.width ha) (hs.apart hij ha hb)

theorem ascending : s.Ascending := pairwise_of_get? hs.start_lt

theorem stop_lt {i j : Nat} {a b : Token} (hij : i < j) (ha : s.get? i = some a)
    (hb : s.get? j = some b) : a.span.stop < b.span.stop :=
  Nat.lt_of_le_of_lt (hs.apart hij ha hb) (hs.width hb)

theorem start_le {i j : Nat} {a b : Token} (hij : i ≤ j) (ha : s.get? i = some a)
    (hb : s.get? j = some b) : a.span.start ≤ b.span.start := by
  rcases Nat.lt_or_eq_of_le hij with hlt | rfl
  · exact Nat.le_of_lt (hs.start_lt hlt ha hb)
  · cases ha.symm.trans hb
    exact Nat.le_refl _

theorem stop_le {i j : Nat} {a b : Token} (hij : i ≤ j) (ha : s.get? i = some a)
    (hb : s.get? j = some b) : a.span.stop ≤ b.span.stop := by
  rcases Nat.lt_or_eq_of_le hij with hlt | rfl
  · exact Nat.le_of_lt (hs.stop_lt hlt ha hb)
  · cases ha.symm.trans hb
    exact Nat.le_refl _

theorem lt_of_start_lt {i j : Nat} {a b : Token} (ha : s.get? i = some a) (hb : s.get? j = some b)
    (h : a.span.start < b.span.start) : i < j := by
  rcases Nat.lt_trichotomy i j with hij | rfl | hij
  · exact hij
  · rw [ha] at hb
    cases hb
    omega
  · have := hs.start_lt hij hb ha
    omega

theorem lt_of_stop_lt {i j : Nat} {a b : Token} (ha : s.get? i = some a) (hb : s.get? j = some b)
    (h : a.span.stop < b.span.stop) : i < j := by
  rcases Nat.lt_trichotomy i j with hij | rfl | hij
  · exact hij
  · rw [ha] at hb
    cases hb
    omega
  · have := hs.stop_lt hij hb ha
    omega

theorem eq_of_stop_eq {i j : Nat} {a b : Token} (ha : s.get? i = some a) (hb : s.get? j = some b)
    (h : a.span.stop = b.span.stop) : i = j := by
  rcases Nat.lt_trichotomy i j with hij | hij | hij
  · have := hs.stop_lt hij ha hb
    omega
  · exact hij
  · have := hs.stop_lt hij hb ha
    omega

end Separate

/-! ### Nearest tokens -/

/-- Whether a search that passes over comments on request stops at this index. -/
def CountsAt (s : TokenStore) (withComments : Bool) (i : Nat) : Prop :=
  ∃ t, s.get? i = some t ∧ counts withComments t = true

/-- The nearest token behind an index. -/
theorem after_eq_some_iff {i j : Nat} {c : Bool} :
    s.after i c = some j ↔ (i < j ∧ s.CountsAt c j) ∧ ∀ k, i < k → s.CountsAt c k → j ≤ k := by
  simp only [after, Option.map_eq_some_iff, findIdx?_eq_some_iff, List.getElem?_drop]
  constructor
  · rintro ⟨k, ⟨hk, hmin⟩, rfl⟩
    refine ⟨⟨by omega, hk⟩, ?_⟩
    rintro l hl ⟨t, ht, hc⟩
    by_contra hlt
    have := hmin (l - (i + 1)) (by omega) t (by rw [← ht]; congr 1; omega)
    rw [this] at hc
    cases hc
  · rintro ⟨⟨hij, t, ht, hc⟩, hmin⟩
    have e : i + 1 + (j - (i + 1)) = j := by omega
    refine ⟨j - (i + 1), ⟨⟨t, by rw [e]; exact ht, hc⟩, ?_⟩, e⟩
    intro k hk u hu
    by_contra hne
    have := hmin (i + 1 + k) (by omega) ⟨u, hu, by simpa using hne⟩
    omega

theorem before_eq_some_iff {i j : Nat} {c : Bool} :
    s.before i c = some j ↔ (j < i ∧ s.CountsAt c j) ∧ ∀ k, k < i → s.CountsAt c k → k ≤ j := by
  have hlen : (s.toList.take i).length = min i s.size := by simp [size]
  have get : ∀ k < min i s.size,
      (s.toList.take i).reverse[k]? = s.get? (min i s.size - 1 - k) := by
    intro k hk
    rw [List.getElem?_reverse (by rw [hlen]; exact hk), hlen,
      List.getElem?_take_of_lt (by omega)]
    rfl
  simp only [before, Option.map_eq_some_iff, findIdx?_eq_some_iff]
  constructor
  · rintro ⟨k, ⟨⟨t, ht, hc⟩, hmin⟩, rfl⟩
    have hk : k < min i s.size := by
      have := (List.getElem?_eq_some_iff.1 ht).1
      rwa [List.length_reverse, hlen] at this
    rw [get k hk] at ht
    rw [hlen]
    refine ⟨⟨by omega, t, ht, hc⟩, ?_⟩
    rintro l hl ⟨u, hu, hcu⟩
    have hls := get?_lt hu
    by_contra hlt
    have hlk : min i s.size - 1 - l < k := by omega
    have e : min i s.size - 1 - (min i s.size - 1 - l) = l := by omega
    have := hmin _ hlk u (by rw [get _ (by omega), e]; exact hu)
    rw [this] at hcu
    cases hcu
  · rintro ⟨⟨hji, t, ht, hc⟩, hmin⟩
    have hjs := get?_lt ht
    have e : min i s.size - 1 - (min i s.size - 1 - j) = j := by omega
    refine ⟨min i s.size - 1 - j, ⟨⟨t, ?_, hc⟩, ?_⟩, by rw [hlen]; exact e⟩
    · rw [get _ (by omega), e]
      exact ht
    · intro k hk u hu
      rw [get _ (by omega)] at hu
      by_contra hne
      have := hmin (min i s.size - 1 - k) (by omega) ⟨u, hu, by simpa using hne⟩
      omega

theorem any_between_iff {i j : Nat} {q : Token → Bool} :
    (s.between i j true).any q = true ↔
      ∃ k t, i < k ∧ k < j ∧ s.get? k = some t ∧ q t = true := by
  have hall : (s.toList.take j).drop (i + 1) = s.between i j true := by
    unfold between
    exact (List.filter_eq_self.2 fun t _ => rfl).symm
  rw [List.any_eq_true, ← hall]
  constructor
  · rintro ⟨t, ht, hq⟩
    obtain ⟨k, hk⟩ := List.getElem?_of_mem ht
    rw [List.getElem?_drop] at hk
    have hlt := (List.getElem?_eq_some_iff.1 hk).1
    rw [List.length_take] at hlt
    rw [List.getElem?_take_of_lt (by omega)] at hk
    exact ⟨i + 1 + k, t, by omega, by omega, hk, hq⟩
  · rintro ⟨k, t, hik, hkj, hk, hq⟩
    refine ⟨t, List.mem_of_getElem? (i := k - (i + 1)) ?_, hq⟩
    rw [List.getElem?_drop, Nat.add_sub_cancel' (by omega), List.getElem?_take_of_lt hkj]
    exact hk

/-! ### Tokens inside a span -/

/-- An accepted code token that lies inside a span. -/
def CodeIn (s : TokenStore) (span : Span) (accept : Token → Bool) (i : Nat) : Prop :=
  ∃ t, s.get? i = some t ∧ span.contains t.span = true ∧ t.isComment = false ∧ accept t = true

theorem contains_iff {a b : Span} :
    a.contains b = true ↔ a.start ≤ b.start ∧ b.stop ≤ a.stop := by
  simp [Span.contains]

theorem pairwise_starts_before (s : TokenStore) (place : Nat) : s.toList.Pairwise fun a b =>
    decide (b.span.start < place) = true → decide (a.span.start < place) = true := by
  apply s.sorted.imp
  intro a b hab hb
  rw [decide_eq_true_eq] at hb ⊢
  omega

theorem lt_length_starts_before {j place : Nat} {t : Token} (ht : s.get? j = some t) :
    j < (s.toList.takeWhile fun t => decide (t.span.start < place)).length ↔
      t.span.start < place := by
  rw [lt_length_takeWhile_iff (s.pairwise_starts_before place) ht, decide_eq_true_eq]

/-- Seen from the back they are counted down. -/
theorem getElem?_reverse_starts_before {k place : Nat} {t : Token} :
    (s.toList.takeWhile fun t => decide (t.span.start < place)).reverse[k]? = some t ↔
      k < (s.toList.takeWhile fun t => decide (t.span.start < place)).length ∧
      s.get? ((s.toList.takeWhile fun t => decide (t.span.start < place)).length - 1 - k) =
        some t := by
  by_cases hk : k < (s.toList.takeWhile fun t => decide (t.span.start < place)).length
  · rw [List.getElem?_reverse hk, getElem?_takeWhile_iff (s.pairwise_starts_before place)]
    constructor
    · rintro ⟨ht, -⟩
      exact ⟨hk, ht⟩
    · rintro ⟨-, ht⟩
      refine ⟨ht, ?_⟩
      rw [decide_eq_true_eq, ← lt_length_starts_before ht]
      omega
  · have hnone : (s.toList.takeWhile fun t => decide (t.span.start < place)).reverse[k]? = none := by
      apply List.getElem?_eq_none
      rw [List.length_reverse]
      omega
    rw [hnone]
    simp [hk]

/-- The first code token inside a span. -/
theorem firstIn_eq_some_iff (hs : s.Separate) {span : Span} {i : Nat} :
    s.firstIn span = some i ↔ s.CodeIn span (fun _ => true) i ∧
      ∀ j, s.CodeIn span (fun _ => true) j → i ≤ j := by
  have hstop : s.toList.Pairwise fun a b =>
      decide (b.span.stop ≤ span.stop) = true → decide (a.span.stop ≤ span.stop) = true :=
    pairwise_of_get? fun hij ha hb h => by
      have := hs.stop_lt hij ha hb
      rw [decide_eq_true_eq] at h ⊢
      omega
  have hskip : ∀ {j : Nat} {t : Token}, s.get? j = some t →
      (j < (s.toList.takeWhile fun t => decide (t.span.start < span.start)).length ↔
        t.span.start < span.start) := lt_length_starts_before
  unfold firstIn
  generalize (s.toList.takeWhile fun t => decide (t.span.start < span.start)).length = n at hskip
  simp only [Option.map_eq_some_iff, findIdx?_eq_some_iff,
    getElem?_takeWhile_iff (hstop.drop), List.getElem?_drop, decide_eq_true_eq]
  constructor
  · rintro ⟨k, ⟨⟨t, ⟨ht, hstop⟩, hcode⟩, hmin⟩, rfl⟩
    have hge : span.start ≤ t.span.start := by
      have := hskip ht
      omega
    refine ⟨⟨t, ht, contains_iff.2 ⟨hge, hstop⟩, by simpa using hcode, rfl⟩, ?_⟩
    rintro j ⟨u, hu, hin, hcodeu, -⟩
    obtain ⟨hustart, hustop⟩ := contains_iff.1 hin
    have hn : n ≤ j := by
      have := hskip hu
      omega
    by_contra hlt
    have e : n + (j - n) = j := by omega
    have := hmin (j - n) (by omega) u ⟨by rw [e]; exact hu, hustop⟩
    simp [hcodeu] at this
  · rintro ⟨⟨t, ht, hin, hcode, -⟩, hmin⟩
    obtain ⟨htstart, htstop⟩ := contains_iff.1 hin
    have hn : n ≤ i := by
      have := hskip ht
      omega
    have e : n + (i - n) = i := by omega
    refine ⟨i - n, ⟨⟨t, ⟨by rw [e]; exact ht, htstop⟩, by simp [hcode]⟩, ?_⟩, e⟩
    rintro k hk u ⟨hu, hustop⟩
    have hustart : span.start ≤ u.span.start := by
      have := hskip hu
      omega
    by_contra hne
    have := hmin (n + k) ⟨u, hu, contains_iff.2 ⟨hustart, hustop⟩, by simpa using hne, rfl⟩
    omega

theorem lastIn_eq_some_iff (hs : s.Separate) {span : Span} {accept : Token → Bool} {i : Nat} :
    s.lastIn span accept = some i ↔ s.CodeIn span accept i ∧
      ∀ j, s.CodeIn span accept j → j ≤ i := by
  -- What the search reaches, from the back: the index `k` is that of the token at `n - 1 - k`.
  have hreach : ∀ {j : Nat} {t : Token}, s.get? j = some t →
      (j < (s.toList.takeWhile fun t => decide (t.span.start < span.stop)).length ↔
        t.span.start < span.stop) := lt_length_starts_before
  have hback : (s.toList.takeWhile fun t => decide (t.span.start < span.stop)).reverse.Pairwise
      fun a b => decide (span.start ≤ b.span.start) = true →
        decide (span.start ≤ a.span.start) = true := by
    rw [List.pairwise_reverse]
    apply (s.sorted.sublist (List.takeWhile_sublist _)).imp
    intro a b hab hb
    rw [decide_eq_true_eq] at hb ⊢
    omega
  unfold lastIn
  simp only [Option.map_eq_some_iff, findIdx?_eq_some_iff, getElem?_takeWhile_iff hback,
    getElem?_reverse_starts_before, decide_eq_true_eq]
  generalize (s.toList.takeWhile fun t => decide (t.span.start < span.stop)).length = n at hreach
  constructor
  · rintro ⟨k, ⟨⟨t, ⟨⟨hk, ht⟩, htstart⟩, htok⟩, hmin⟩, rfl⟩
    simp only [Bool.and_eq_true, decide_eq_true_eq, Bool.not_eq_true'] at htok
    refine ⟨⟨t, ht, contains_iff.2 ⟨htstart, htok.1.1⟩, htok.1.2, htok.2⟩, ?_⟩
    rintro j ⟨u, hu, hin, hcode, hacc⟩
    obtain ⟨hustart, hustop⟩ := contains_iff.1 hin
    have hn : j < n := by
      have := hs.width hu
      exact (hreach hu).2 (by omega)
    by_contra hlt
    have e : n - 1 - (n - 1 - j) = j := by omega
    have := hmin (n - 1 - j) (by omega) u ⟨⟨by omega, by rw [e]; exact hu⟩, hustart⟩
    simp [hcode, hacc, hustop] at this
  · rintro ⟨⟨t, ht, hin, hcode, hacc⟩, hmax⟩
    obtain ⟨htstart, htstop⟩ := contains_iff.1 hin
    have hn : i < n := by
      have := hs.width ht
      exact (hreach ht).2 (by omega)
    have e : n - 1 - (n - 1 - i) = i := by omega
    refine ⟨n - 1 - i, ⟨⟨t, ⟨⟨by omega, by rw [e]; exact ht⟩, htstart⟩, ?_⟩, ?_⟩, e⟩
    · simp [hcode, hacc, htstop]
    · rintro k hk u ⟨⟨hkn, hu⟩, hustart⟩
      by_contra hne
      simp only [Bool.not_eq_false, Bool.and_eq_true, decide_eq_true_eq, Bool.not_eq_true'] at hne
      have := hmax (n - 1 - k) ⟨u, hu, contains_iff.2 ⟨hustart, hne.1.1⟩, hne.1.2, hne.2⟩
      omega

end TokenStore
end Interline
