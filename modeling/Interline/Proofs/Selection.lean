import Mathlib
import Interline.Proofs.Splicing

/-! # Which edits are taken, and what they make of the text

`Replacement.applyAll` has to choose among edits that do not fit the text, overlap or repeat each
other.  Its choice is as large as can be: what is left out does not fit, or an edit that is taken
gets in its way and comes first in the order of the sort (`exists_left_out`).

What the taken edits make of the text can be said in two other ways, both of which could fail and
do not:

* `editAlone?` makes a single edit in a text.  Made one by one from the last to the first, so that
  none of them moves the place of another, the taken edits give the same text
  (`Rewrites.foldr_editAlone?`).
* `copyAround?` goes through the old text once, and cuts it by offsets of the old text
  (`Rewrites.copyAround?_eq`).

`applyAll_exact` puts this together.  By `applyAll_of_perm` the outcome does not depend on the order
of the edits, if those for one range agree on the new text. -/

namespace Interline.Replacement

/-! ### Edits that are left out -/

/-- An edit gives way to another one that is in its way and does not come after it. -/
def YieldsTo (r x : Replacement) : Prop := r.conflictsWith x = true ∧ x.before r = true

theorem yieldsTo_iff {r x : Replacement} : r.YieldsTo x ↔
    (r.start = x.start ∨ r.start < x.stop) ∧
      (x.start < r.start ∨ x.start = r.start ∧ x.stop ≤ r.stop) := by
  unfold YieldsTo
  rw [conflictsWith_iff, before_iff, or_comm]

/-- Of ordered edits, those that are left out do not fit or give way to one that is taken.  The one
taken last before the list counts as taken. -/
theorem exists_left_out_of_accept {text : List Char} :
    ∀ {rs : List Replacement} {last : Option Replacement},
      rs.Pairwise (fun a b => a.before b = true) → (∀ l ∈ last, ∀ x ∈ rs, l.before x = true) →
      ∃ left, (accept text last rs ++ left).Perm rs ∧
        ∀ r ∈ left, r.fits text = false ∨ ∃ x, (x ∈ last ∨ x ∈ accept text last rs) ∧ r.YieldsTo x
  | [], _, _, _ => ⟨[], by simp [accept], by simp⟩
  | r :: rs, last, hs, hlast => by
      obtain ⟨hr, hrs⟩ := List.pairwise_cons.1 hs
      unfold accept
      split
      next hc =>
        have hnext : ∀ l ∈ some r, ∀ x ∈ rs, l.before x = true := by
          intro l hl
          cases hl
          exact hr
        obtain ⟨left, hperm, hleft⟩ := exists_left_out_of_accept hrs hnext
        refine ⟨left, hperm.cons r, fun y hy => (hleft y hy).imp_right ?_⟩
        rintro ⟨x, hx, hyx⟩
        rcases hx with hx | hx
        · cases hx
          exact ⟨r, .inr List.mem_cons_self, hyx⟩
        · exact ⟨x, .inr (List.mem_cons_of_mem _ hx), hyx⟩
      next hc =>
        obtain ⟨left, hperm, hleft⟩ := exists_left_out_of_accept hrs
          fun l hl x hx => hlast l hl x (List.mem_cons_of_mem _ hx)
        refine ⟨r :: left, List.perm_middle.trans (hperm.cons r), fun y hy => ?_⟩
        rcases List.mem_cons.1 hy with rfl | hy
        · -- What is passed over is in the way of the edit taken last.
          simp only [Bool.and_eq_true, Bool.not_eq_true', not_and, Bool.not_eq_false,
            Option.any_eq_true] at hc
          cases hfit : y.fits text with
          | false => exact .inl rfl
          | true =>
              obtain ⟨l, hl, hconf⟩ := hc hfit
              exact .inr ⟨l, .inl hl, hconf, hlast l hl y List.mem_cons_self⟩
        · exact hleft y hy

theorem exists_left_out (text : List Char) (rs : List Replacement) :
    ∃ left, (accepted text rs ++ left).Perm rs ∧
      ∀ r ∈ left, r.fits text = false ∨ ∃ x ∈ accepted text rs, r.YieldsTo x := by
  obtain ⟨left, hperm, hleft⟩ := exists_left_out_of_accept (pairwise_before rs)
    (fun l hl => absurd hl (Option.not_mem_none l))
  refine ⟨left, hperm.trans (List.mergeSort_perm rs before), fun r hr => ?_⟩
  exact (hleft r hr).imp_right fun ⟨x, hx, hrx⟩ => ⟨x, hx.resolve_left (by simp), hrx⟩

/-! ### One edit after the other -/

/-- The text with one edit in it; fails if an end of the edit is no place of the text. -/
def editAlone? (r : Replacement) (text : List Char) : Option (List Char) := do
  let front ← Text.slice? text 0 r.start
  let back ← Text.drop? text r.stop
  return front ++ r.newText.toList ++ back

/-- The text from a place on with edits in it, each piece of it cut out by offsets of the whole
text; fails if a cut does. -/
def copyAround? (text : List Char) (place : Nat) : List Replacement → Option (List Char)
  | [] => Text.drop? text place
  | r :: rest => do
    let kept ← Text.slice? text place r.start
    let edited ← copyAround? text r.stop rest
    return kept ++ r.newText.toList ++ edited

namespace Rewrites

variable {k : Nat} {cs out : List Char} {rs : List Replacement}

theorem copyAround?_eq (h : Rewrites k cs rs out) : ∀ {front : List Char},
    Text.byteLength front = k → copyAround? (front ++ cs) k rs = some out := by
  induction h with
  | keep k cs =>
      intro front hfront
      rw [copyAround?, Text.drop?_eq_map_split?, Text.split?_eq_some_iff.2 ⟨rfl, hfront⟩]
      rfl
  | @replace k kept cut rest out r rs hk hc _ ih =>
      intro front hfront
      have hkept : Text.slice? (front ++ (kept ++ cut ++ rest)) k r.start = some kept :=
        Text.slice?_eq_some_iff.2 ⟨front, cut ++ rest, by simp, hfront, hk⟩
      have hrest : copyAround? (front ++ (kept ++ cut ++ rest)) r.stop rs = some out := by
        have hplace : Text.byteLength (front ++ kept ++ cut) = r.stop := by
          simp only [Text.byteLength_append]
          omega
        simpa using ih hplace
      rw [copyAround?, hkept, hrest]
      rfl

theorem foldr_editAlone? (h : Rewrites k cs rs out) : ∀ {front : List Char},
    Text.byteLength front = k →
      rs.foldr (fun r text => text.bind r.editAlone?) (some (front ++ cs)) =
        some (front ++ out) := by
  induction h with
  | keep k cs =>
      intro front _
      rfl
  | @replace k kept cut rest out r rs hk hc _ ih =>
      intro front hfront
      have hplace : Text.byteLength (front ++ kept ++ cut) = r.stop := by
        simp only [Text.byteLength_append]
        omega
      have hlater : rs.foldr (fun r text => text.bind r.editAlone?)
          (some (front ++ (kept ++ cut ++ rest))) = some (front ++ kept ++ cut ++ out) := by
        simpa using ih hplace
      have hfirst : Text.slice? (front ++ kept ++ cut ++ out) 0 r.start = some (front ++ kept) :=
        Text.slice?_eq_some_iff.2 ⟨[], cut ++ out, by simp, rfl, by
          rw [Text.byteLength_append]
          omega⟩
      have hsecond : Text.drop? (front ++ kept ++ cut ++ out) r.stop = some out := by
        rw [Text.drop?_eq_map_split?, Text.split?_eq_some_iff.2 ⟨rfl, hplace⟩]
        rfl
      rw [List.foldr_cons, hlater, Option.bind_some, editAlone?, hfirst, hsecond]
      simp

end Rewrites

/-- **Edits are applied as the exact splice of as many as go together.**  The edits of a list are
taken or left out.  Those taken fit the text, and each ends by the start of the next one, which
starts behind its own start.  One that is left out does not fit, or starts where one that is taken
starts or in front of its end, and comes no earlier in the order of the sort.  The new text is what
comes of making the edits taken one by one from the last to the first, and of one pass over the old
text; neither of them cuts a text where it cannot be cut. -/
theorem applyAll_exact (text : String) (rs : List Replacement) :
    ∃ left, (accepted text.toList rs ++ left).Perm rs ∧
      (∀ x ∈ accepted text.toList rs,
        x.start ≤ x.stop ∧ x.stop ≤ Text.byteLength text.toList ∧
        Text.isBoundary text.toList x.start = true ∧ Text.isBoundary text.toList x.stop = true) ∧
      (accepted text.toList rs).Pairwise (fun x y => x.stop ≤ y.start ∧ x.start < y.start) ∧
      (∀ r ∈ left, r.fits text.toList = false ∨ ∃ x ∈ accepted text.toList rs,
        (r.start = x.start ∨ r.start < x.stop) ∧
          (x.start < r.start ∨ x.start = r.start ∧ x.stop ≤ r.stop)) ∧
      (accepted text.toList rs).foldr (fun r text => text.bind r.editAlone?) (some text.toList) =
        some (applyAll text rs).text.toList ∧
      copyAround? text.toList 0 (accepted text.toList rs) = some (applyAll text rs).text.toList ∧
      (applyAll text rs).applied = (accepted text.toList rs).length ∧
      (applyAll text rs).applied + (applyAll text rs).skipped = rs.length := by
  obtain ⟨left, hperm, hleft⟩ := exists_left_out text.toList rs
  have hrewrites := rewrites_accepted text.toList rs
  have htext : (applyAll text rs).text.toList =
      splice 0 text.toList (accepted text.toList rs) := String.toList_ofList
  have hlength : (accepted text.toList rs).length ≤ rs.length := by
    rw [← hperm.length_eq, List.length_append]
    omega
  refine ⟨left, hperm, fun x hx => ?_, accepted_apart text.toList rs, fun r hr => ?_, ?_, ?_, rfl,
    Nat.add_sub_of_le hlength⟩
  · obtain ⟨hle, hstart, hstop⟩ := fits_iff.1 (mem_accepted hx).2
    exact ⟨hle, Text.le_of_isBoundary hstop, hstart, hstop⟩
  · simpa only [yieldsTo_iff] using hleft r hr
  · rw [htext]
    exact hrewrites.foldr_editAlone? Text.byteLength_nil
  · rw [htext]
    exact hrewrites.copyAround?_eq Text.byteLength_nil

/-! ### The order of the list -/

theorem mergeSort_eq_of_perm {rs rs' : List Replacement} (hperm : rs.Perm rs')
    (hsame : ∀ x ∈ rs, ∀ y ∈ rs, x.start = y.start → x.stop = y.stop → x.newText = y.newText) :
    rs.mergeSort before = rs'.mergeSort before := by
  have hsorted : (rs.mergeSort before).Perm (rs'.mergeSort before) :=
    (List.mergeSort_perm rs before).trans (hperm.trans (List.mergeSort_perm rs' before).symm)
  refine hsorted.eq_of_pairwise (fun x y hx hy hxy hyx => ?_) (pairwise_before rs)
    (pairwise_before rs')
  rw [before_iff] at hxy hyx
  have hstart : x.start = y.start := by omega
  have hstop : x.stop = y.stop := by omega
  have htext := hsame x (List.mem_mergeSort.1 hx) y
    (hperm.mem_iff.2 (List.mem_mergeSort.1 hy)) hstart hstop
  obtain ⟨_, _, _⟩ := x
  obtain ⟨_, _, _⟩ := y
  simp only at hstart hstop htext
  rw [hstart, hstop, htext]

/-- **The order in which edits are listed does not matter**, if those for one range agree on the new
text: the new text and both counts are the same for every permutation of the list. -/
theorem applyAll_of_perm (text : String) {rs rs' : List Replacement} (hperm : rs.Perm rs')
    (hsame : ∀ x ∈ rs, ∀ y ∈ rs, x.start = y.start → x.stop = y.stop → x.newText = y.newText) :
    applyAll text rs' = applyAll text rs := by
  have htaken : accepted text.toList rs' = accepted text.toList rs := by
    unfold accepted
    rw [mergeSort_eq_of_perm hperm hsame]
  unfold applyAll
  rw [htaken, hperm.length_eq]

/-- Edits that overlap, repeat each other, or do not fit. -/
def crowded : List Replacement :=
  [⟨3, 4, "x"⟩, .removal 2 4, .insertion 1 "-", .insertion 40 "q", .insertion 1 "-", ⟨5, 4, "y"⟩]

theorem applyAll_of_perm_crowded :
    crowded.Perm crowded.reverse ∧
    (∀ x ∈ crowded, ∀ y ∈ crowded, x.start = y.start → x.stop = y.stop →
      x.newText = y.newText) ∧
    applyAll "a;\n\nb;" crowded.reverse = ⟨"a-;b;", 2, 4⟩ := by
  have hperm : crowded.Perm crowded.reverse := (List.reverse_perm crowded).symm
  have hsame : ∀ x ∈ crowded, ∀ y ∈ crowded, x.start = y.start → x.stop = y.stop →
      x.newText = y.newText := by decide
  have hlisted : applyAll "a;\n\nb;" crowded = ⟨"a-;b;", 2, 4⟩ := by cbv
  exact ⟨hperm, hsame, (applyAll_of_perm _ hperm hsame).trans hlisted⟩

end Interline.Replacement
