import Mathlib
import Interline.Proofs.TokenSearch

/-! # Searches against a look at every token

A store takes tokens in any order.  If they have width and no two of them overlap, it keeps them
`Separate` (`separate_ofList`), and then a search that stops early gives the same answer as a look
at every index:

* `FindsLeast` and `FindsGreatest` say of an answer that it is the least or the greatest index with
  some property, or that no index has it;
* `indicesBetween` goes through all indices of a store and keeps those that lie between two others;
  the tokens there are what `between` lists (`map_indicesBetween`).

`searches_ofList` puts this together for all searches of a store. -/

namespace Interline

/-- Whether two tokens have no byte in common. -/
def Token.Apart (a b : Token) : Prop :=
  a.span.stop ≤ b.span.start ∨ b.span.stop ≤ a.span.start

instance (a b : Token) : Decidable (a.Apart b) := by
  unfold Token.Apart
  infer_instance

/-! ### Answers of a search -/

/-- An answer is the least number with a property, and missing only if there is none. -/
def FindsLeast (p : Nat → Prop) (answer : Option Nat) : Prop :=
  (∀ i, answer = some i ↔ IsLeast {j | p j} i) ∧ (answer = none ↔ ∀ j, ¬p j)

/-- An answer is the greatest number with a property, and missing only if there is none. -/
def FindsGreatest (p : Nat → Prop) (answer : Option Nat) : Prop :=
  (∀ i, answer = some i ↔ IsGreatest {j | p j} i) ∧ (answer = none ↔ ∀ j, ¬p j)

section answers

variable {p : Nat → Prop} {answer : Option Nat}

theorem findsLeast_of_some_iff (h : ∀ i, answer = some i ↔ p i ∧ ∀ j, p j → i ≤ j) :
    FindsLeast p answer := by
  classical
  refine ⟨h, fun hnone j hj => ?_, fun hall => ?_⟩
  · have hleast : answer = some (Nat.find ⟨j, hj⟩) :=
      (h _).2 ⟨Nat.find_spec ⟨j, hj⟩, fun k hk => Nat.find_min' ⟨j, hj⟩ hk⟩
    rw [hnone] at hleast
    cases hleast
  · cases hanswer : answer with
    | none => rfl
    | some i => exact absurd ((h i).1 hanswer).1 (hall i)

theorem findsGreatest_of_some_iff {n : Nat} (hbound : ∀ j, p j → j < n)
    (h : ∀ i, answer = some i ↔ p i ∧ ∀ j, p j → j ≤ i) : FindsGreatest p answer := by
  classical
  refine ⟨h, fun hnone j hj => ?_, fun hall => ?_⟩
  · have hle : ∀ k, p k → k ≤ n := fun k hk => Nat.le_of_lt (hbound k hk)
    have hgreatest : answer = some (Nat.findGreatest p n) :=
      (h _).2 ⟨Nat.findGreatest_spec (hle j hj) hj, fun k hk => Nat.le_findGreatest (hle k hk) hk⟩
    rw [hnone] at hgreatest
    cases hgreatest
  · cases hanswer : answer with
    | none => rfl
    | some i => exact absurd ((h i).1 hanswer).1 (hall i)

theorem FindsLeast.exists_some (h : FindsLeast p answer) {j : Nat} (hj : p j) :
    ∃ i, answer = some i := by
  rw [← Option.isSome_iff_exists, Option.isSome_iff_ne_none]
  exact fun hnone => h.2.1 hnone j hj

theorem FindsGreatest.exists_some (h : FindsGreatest p answer) {j : Nat} (hj : p j) :
    ∃ i, answer = some i := by
  rw [← Option.isSome_iff_exists, Option.isSome_iff_ne_none]
  exact fun hnone => h.2.1 hnone j hj

end answers

namespace TokenStore

/-! ### Stores of tokens that are apart -/

section ofList

variable {tokens : List Token}

theorem perm_ofList (tokens : List Token) : (ofList tokens).toList.Perm tokens :=
  List.mergeSort_perm _ _

/-- Sorted by their starts, tokens that are apart follow each other with their ends as well. -/
theorem separate_ofList (hwidth : ∀ t ∈ tokens, t.span.start < t.span.stop)
    (hapart : tokens.Pairwise Token.Apart) : (ofList tokens).Separate := by
  have hmem : ∀ {i : Nat} {t : Token}, (ofList tokens).get? i = some t → t ∈ tokens := fun ht =>
    (perm_ofList tokens).mem_iff.1 (List.mem_of_getElem? ht)
  have hsorted : (ofList tokens).toList.Pairwise Token.Apart :=
    (perm_ofList tokens).symm.pairwise hapart fun hab => hab.symm
  constructor
  case width =>
    intro i t ht
    exact hwidth t (hmem ht)
  case apart =>
    intro i j a b hij ha hb
    have hwa := hwidth a (hmem ha)
    have hwb := hwidth b (hmem hb)
    obtain ⟨hi, rfl⟩ := List.getElem?_eq_some_iff.1 ha
    obtain ⟨hj, rfl⟩ := List.getElem?_eq_some_iff.1 hb
    have hstart := List.pairwise_iff_getElem.1 (ofList tokens).sorted i j hi hj hij
    -- The token that starts later cannot be the one that ends first.
    rcases List.pairwise_iff_getElem.1 hsorted i j hi hj hij with h | h
    · exact h
    · omega

end ofList

/-! ### Searches from an index and in a span -/

section indices

variable {s : TokenStore}

theorem CountsAt.lt_size {withComments : Bool} {i : Nat} (h : s.CountsAt withComments i) :
    i < s.size := by
  obtain ⟨t, ht, -⟩ := h
  exact get?_lt ht

theorem CodeIn.lt_size {span : Span} {accept : Token → Bool} {i : Nat}
    (h : s.CodeIn span accept i) : i < s.size := by
  obtain ⟨t, ht, -⟩ := h
  exact get?_lt ht

theorem Separate.findsLeast_firstIn (hs : s.Separate) (span : Span) :
    FindsLeast (s.CodeIn span fun _ => true) (s.firstIn span) :=
  findsLeast_of_some_iff fun _ => firstIn_eq_some_iff hs

theorem Separate.findsGreatest_lastIn (hs : s.Separate) (span : Span) (accept : Token → Bool) :
    FindsGreatest (s.CodeIn span accept) (s.lastIn span accept) :=
  findsGreatest_of_some_iff (fun _ hj => hj.lt_size) fun _ => lastIn_eq_some_iff hs

theorem findsLeast_after (i : Nat) (withComments : Bool) :
    FindsLeast (fun j => i < j ∧ s.CountsAt withComments j) (s.after i withComments) :=
  findsLeast_of_some_iff fun j => by
    rw [after_eq_some_iff]
    simp only [and_imp]

theorem findsGreatest_before (i : Nat) (withComments : Bool) :
    FindsGreatest (fun j => j < i ∧ s.CountsAt withComments j) (s.before i withComments) :=
  findsGreatest_of_some_iff (fun _ hj => hj.2.lt_size) fun j => by
    rw [before_eq_some_iff]
    simp only [and_imp]

/-- All indices strictly between two others at which a search stops, by a look at every index. -/
def indicesBetween (s : TokenStore) (i j : Nat) (withComments : Bool) : List Nat :=
  (List.range s.size).filter fun k =>
    decide (i < k) && decide (k < j) && (s.get? k).any (counts withComments)

theorem mem_indicesBetween_iff {i j k : Nat} {withComments : Bool} :
    k ∈ s.indicesBetween i j withComments ↔ i < k ∧ k < j ∧ s.CountsAt withComments k := by
  have hcounts : (s.get? k).any (counts withComments) = true ↔ s.CountsAt withComments k := by
    simp only [Option.any_eq_true, CountsAt]
  unfold indicesBetween
  rw [List.mem_filter, List.mem_range, Bool.and_eq_true, Bool.and_eq_true, decide_eq_true_eq,
    decide_eq_true_eq, hcounts]
  constructor
  · rintro ⟨-, ⟨hik, hkj⟩, hk⟩
    exact ⟨hik, hkj, hk⟩
  · rintro ⟨hik, hkj, hk⟩
    exact ⟨hk.lt_size, ⟨hik, hkj⟩, hk⟩

theorem pairwise_indicesBetween (i j : Nat) (withComments : Bool) :
    (s.indicesBetween i j withComments).Pairwise (· < ·) :=
  List.pairwise_lt_range.filter _

/-- A stretch of a list, filtered, is read off at the indices in it that pass the filter. -/
theorem map_getElem?_filter_range {α : Type} (p : α → Bool) : ∀ (l : List α) (i j : Nat),
    ((List.range l.length).filter fun k =>
        decide (i ≤ k) && decide (k < j) && l[k]?.any p).map (l[·]?) =
      (((l.take j).drop i).filter p).map some
  | [], _, _ => by simp
  | x :: l, i, 0 => by simp
  | x :: l, 0, j + 1 => by
      have ih := map_getElem?_filter_range p l 0 j
      rw [List.length_cons, List.range_succ_eq_map, List.take_succ_cons]
      cases hp : p x <;> simpa [List.filter_map, Function.comp_def, hp] using ih
  | x :: l, i + 1, j + 1 => by
      have ih := map_getElem?_filter_range p l i j
      rw [List.length_cons, List.range_succ_eq_map, List.take_succ_cons, List.drop_succ_cons]
      simpa [List.filter_map, Function.comp_def] using ih

theorem map_indicesBetween (i j : Nat) (withComments : Bool) :
    (s.indicesBetween i j withComments).map s.get? = (s.between i j withComments).map some :=
  map_getElem?_filter_range (counts withComments) s.toList (i + 1) j

theorem between_eq_nil {i j : Nat} (h : j ≤ i) (withComments : Bool) :
    s.between i j withComments = [] := by
  unfold between
  rw [List.drop_of_length_le (by rw [List.length_take]; omega), List.filter_nil]

end indices

/-! ### All searches -/

/-- **Every search of a store finds what a look at all its tokens finds.**  The store holds the given
tokens in the order of their starts.  Inside any span the first code token and the last accepted one
are those with the least and the greatest index; before and behind any index lie the greatest
smaller and the least larger one at which the search may stop; and what stands between two indices
are the tokens there, in order. -/
theorem searches_ofList {tokens : List Token}
    (hwidth : ∀ t ∈ tokens, t.span.start < t.span.stop) (hapart : tokens.Pairwise Token.Apart) :
    let s := ofList tokens
    (s.toList.Perm tokens ∧ s.Ascending) ∧
    (∀ span, FindsLeast (s.CodeIn span fun _ => true) (s.firstIn span)) ∧
    (∀ span accept, FindsGreatest (s.CodeIn span accept) (s.lastIn span accept)) ∧
    (∀ i withComments, FindsGreatest (fun j => j < i ∧ s.CountsAt withComments j)
      (s.before i withComments)) ∧
    (∀ i withComments, FindsLeast (fun j => i < j ∧ s.CountsAt withComments j)
      (s.after i withComments)) ∧
    ∀ i j withComments, ∃ indices : List Nat, indices.Pairwise (· < ·) ∧
      (∀ k, k ∈ indices ↔ i < k ∧ k < j ∧ s.CountsAt withComments k) ∧
      (s.between i j withComments).map some = indices.map s.get? ∧
      (j ≤ i → s.between i j withComments = []) := by
  have hs := separate_ofList hwidth hapart
  refine ⟨⟨perm_ofList tokens, hs.ascending⟩, hs.findsLeast_firstIn, hs.findsGreatest_lastIn,
    findsGreatest_before, findsLeast_after, fun i j withComments => ?_⟩
  exact ⟨_, pairwise_indicesBetween i j withComments, fun k => mem_indicesBetween_iff,
    (map_indicesBetween i j withComments).symm, fun h => between_eq_nil h withComments⟩

/-- Three words and a comment, out of order. -/
def scattered : List Token :=
  let onLine (a b : Nat) : Span := ⟨a, b, ⟨1, a⟩, ⟨1, b⟩⟩
  [⟨.punctuator, ";", onLine 9 10, none⟩, ⟨.identifier, "abc", onLine 0 3, none⟩,
    ⟨.blockComment, "/**/", onLine 4 8, none⟩, ⟨.identifier, "d", onLine 8 9, none⟩]

/-- The span from `b` on passes over the word that it cuts, and the comment; a span whose ends are
exchanged holds nothing. -/
theorem searches_ofList_scattered :
    (∀ t ∈ scattered, t.span.start < t.span.stop) ∧ scattered.Pairwise Token.Apart ∧
    (ofList scattered).Ascending ∧
    IsLeast {j | (ofList scattered).CodeIn ⟨1, 10, ⟨1, 1⟩, ⟨1, 10⟩⟩ (fun _ => true) j} 2 ∧
    IsGreatest {j | (ofList scattered).CodeIn ⟨0, 10, ⟨1, 0⟩, ⟨1, 10⟩⟩ (!·.isSemicolon) j} 2 ∧
    (∀ j, ¬(ofList scattered).CodeIn ⟨9, 2, ⟨1, 9⟩, ⟨1, 2⟩⟩ (fun _ => true) j) ∧
    IsGreatest {j | j < 2 ∧ (ofList scattered).CountsAt false j} 0 := by
  have hwidth : ∀ t ∈ scattered, t.span.start < t.span.stop := by decide
  have hapart : scattered.Pairwise Token.Apart := by decide
  obtain ⟨⟨-, hascending⟩, hfirst, hlast, hbefore, -⟩ := searches_ofList hwidth hapart
  have hcut : (ofList scattered).firstIn ⟨1, 10, ⟨1, 1⟩, ⟨1, 10⟩⟩ = some 2 := by cbv
  have hword : (ofList scattered).lastIn ⟨0, 10, ⟨1, 0⟩, ⟨1, 10⟩⟩ (!·.isSemicolon) = some 2 := by cbv
  have hreversed : (ofList scattered).lastIn ⟨9, 2, ⟨1, 9⟩, ⟨1, 2⟩⟩ (fun _ => true) = none := by cbv
  have hbehind : (ofList scattered).before 2 false = some 0 := by cbv
  exact ⟨hwidth, hapart, hascending, ((hfirst _).1 2).1 hcut, ((hlast _ _).1 2).1 hword,
    (hlast _ _).2.1 hreversed, ((hbefore 2 false).1 0).1 hbehind⟩

end TokenStore
end Interline
