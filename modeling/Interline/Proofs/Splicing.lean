import Mathlib
import Interline.Replacement
import Interline.Proofs.TextPlaces

/-! # What edits do to a text

`Replacement.applyAll` takes any list of replacements.  Those that it accepts are in order and apart
(`accepted_apart`).  If a list has no conflicts but at the starts (`Compatible`), each start is
served (`exists_accepted`), by one edit (`length_accepted`).

* `Rewrites` relates a text, edits in order and the edited text, one edit at a time; the splice of
  accepted edits is such a text (`rewrites_accepted`).
* `moved` follows a place of the old text into the new one.  `Rewrites.split` cuts an edit at a
  place: what stands before it is rewritten by the edits before it, and so for what stands behind.
* Bytes and line feeds of an edited text are counted by `Rewrites.byteLength` and
  `Rewrites.count_newline`; `Rewrites.origin` says where each of its bytes comes from. -/

namespace Interline.Replacement

/-! ### Accepted edits -/

/-- Whether one edit can stand before another: it ends by the other's start, and starts earlier. -/
def Precedes (a b : Replacement) : Prop := a.stop ≤ b.start ∧ a.start < b.start

theorem before_iff {a b : Replacement} :
    a.before b = true ↔ a.start < b.start ∨ a.start = b.start ∧ a.stop ≤ b.stop := by
  simp [before]

theorem fits_iff {text : List Char} {r : Replacement} : r.fits text = true ↔
    r.start ≤ r.stop ∧ Text.isBoundary text r.start = true ∧
      Text.isBoundary text r.stop = true := by
  simp only [fits, Bool.and_eq_true, decide_eq_true_eq, and_assoc]

theorem conflictsWith_iff {r x : Replacement} :
    r.conflictsWith x = true ↔ r.start < x.stop ∨ r.start = x.start := by
  simp [conflictsWith]

theorem pairwise_before (rs : List Replacement) :
    (rs.mergeSort before).Pairwise fun a b => a.before b = true :=
  List.pairwise_mergeSort
    (by
      intro a b c
      simp only [before_iff]
      omega)
    (by
      intro a b
      simp only [Bool.or_eq_true, before_iff]
      omega) rs

theorem pairwise_sorted (rs : List Replacement) :
    (rs.mergeSort before).Pairwise fun a b => a.start ≤ b.start := by
  apply (pairwise_before rs).imp
  intro a b hab
  rw [before_iff] at hab
  omega

theorem start_le_of_fits {text : List Char} {r : Replacement} (h : r.fits text = true) :
    r.start ≤ r.stop :=
  (fits_iff.1 h).1

theorem mem_accept {text : List Char} {r : Replacement} :
    ∀ {rs : List Replacement} {last : Option Replacement},
      rs.Pairwise (fun a b => a.start ≤ b.start) →
      (∀ l ∈ last, l.fits text = true ∧ ∀ x ∈ rs, l.start ≤ x.start) →
      r ∈ accept text last rs → r ∈ rs ∧ r.fits text = true ∧ ∀ l ∈ last, l.Precedes r
  | [], _, _, _, hr => by simp [accept] at hr
  | x :: rs, last, hs, hlast, hr => by
      obtain ⟨hx, hrs⟩ := List.pairwise_cons.1 hs
      unfold accept at hr
      split at hr
      next hc =>
        simp only [Bool.and_eq_true, Bool.not_eq_true', Option.any_eq_false] at hc
        have hpre : ∀ l ∈ last, l.Precedes x := by
          intro l hl
          have hconf := hc.2 l hl
          have := (hlast l hl).2 x List.mem_cons_self
          rw [← Bool.not_eq_true, conflictsWith_iff] at hconf
          unfold Precedes
          omega
        rcases List.mem_cons.1 hr with rfl | hr
        · exact ⟨List.mem_cons_self, hc.1, hpre⟩
        · have hlast' : ∀ l ∈ some x, l.fits text = true ∧ ∀ y ∈ rs, l.start ≤ y.start := by
            intro l hl
            cases hl
            exact ⟨hc.1, hx⟩
          obtain ⟨hmem, hfit, hnext⟩ := mem_accept hrs hlast' hr
          refine ⟨List.mem_cons_of_mem _ hmem, hfit, fun l hl => ?_⟩
          have h₁ := hpre l hl
          have h₂ := hnext x rfl
          have := start_le_of_fits hc.1
          unfold Precedes at h₁ h₂ ⊢
          omega
      next hc =>
        have hlast' : ∀ l ∈ last, l.fits text = true ∧ ∀ y ∈ rs, l.start ≤ y.start :=
          fun l hl => ⟨(hlast l hl).1, fun y hy => (hlast l hl).2 y (List.mem_cons_of_mem _ hy)⟩
        obtain ⟨hmem, hrest⟩ := mem_accept hrs hlast' hr
        exact ⟨List.mem_cons_of_mem _ hmem, hrest⟩

theorem accept_pairwise {text : List Char} :
    ∀ {rs : List Replacement} (last : Option Replacement),
      rs.Pairwise (fun a b => a.start ≤ b.start) → (accept text last rs).Pairwise Precedes
  | [], _, _ => by simp [accept]
  | x :: rs, last, hs => by
      obtain ⟨hx, hrs⟩ := List.pairwise_cons.1 hs
      unfold accept
      split
      next hc =>
        simp only [Bool.and_eq_true] at hc
        have hlast : ∀ l ∈ some x, l.fits text = true ∧ ∀ y ∈ rs, l.start ≤ y.start := by
          intro l hl
          cases hl
          exact ⟨hc.1, hx⟩
        refine List.pairwise_cons.2 ⟨fun r hr => ?_, accept_pairwise _ hrs⟩
        obtain ⟨-, -, hpre⟩ := mem_accept hrs hlast hr
        exact hpre x rfl
      next => exact accept_pairwise _ hrs

theorem mem_accepted {text : List Char} {rs : List Replacement} {r : Replacement}
    (h : r ∈ accepted text rs) : r ∈ rs ∧ r.fits text = true := by
  obtain ⟨hmem, hfit, -⟩ := mem_accept (pairwise_sorted rs) (by simp) h
  exact ⟨List.mem_mergeSort.1 hmem, hfit⟩

theorem accepted_apart (text : List Char) (rs : List Replacement) :
    (accepted text rs).Pairwise Precedes :=
  accept_pairwise none (pairwise_sorted rs)

/-- Whether edits are apart, but for those that start at one place. -/
def Compatible (rs : List Replacement) : Prop :=
  ∀ x ∈ rs, ∀ y ∈ rs, x.start = y.start ∨ x.Precedes y ∨ y.Precedes x

theorem compatible_of_insertions {rs : List Replacement} (h : ∀ x ∈ rs, x.stop = x.start) :
    Compatible rs := by
  intro x hx y hy
  have := h x hx
  have := h y hy
  unfold Precedes
  omega

theorem exists_accept {text : List Char} {r : Replacement} :
    ∀ {rs : List Replacement} {last : Option Replacement},
      rs.Pairwise (fun a b => a.start ≤ b.start) → Compatible rs →
      (∀ l ∈ last, ∀ x ∈ rs, l.start = x.start ∨ l.Precedes x) →
      r ∈ rs → r.fits text = true →
        (∃ l ∈ last, l.start = r.start) ∨ ∃ x ∈ accept text last rs, x.start = r.start
  | [], _, _, _, _, hr, _ => by simp at hr
  | x :: rs, last, hs, hcomp, hlast, hr, hfit => by
      obtain ⟨hx, hrs⟩ := List.pairwise_cons.1 hs
      have hcomp' : Compatible rs := fun y hy z hz =>
        hcomp y (List.mem_cons_of_mem _ hy) z (List.mem_cons_of_mem _ hz)
      unfold accept
      split
      next hc =>
        rcases List.mem_cons.1 hr with rfl | hr
        · exact .inr ⟨r, List.mem_cons_self, rfl⟩
        · have hnext : ∀ l ∈ some x, ∀ y ∈ rs, l.start = y.start ∨ l.Precedes y := by
            intro l hl y hy
            cases hl
            have hle := hx y hy
            rcases hcomp x List.mem_cons_self y (List.mem_cons_of_mem _ hy) with h | h | h
            · exact .inl h
            · exact .inr h
            · exact absurd h.2 (Nat.not_lt.2 hle)
          rcases exists_accept hrs hcomp' hnext hr hfit with ⟨l, hl, he⟩ | ⟨y, hy, he⟩
          · cases hl
            exact .inr ⟨x, List.mem_cons_self, he⟩
          · exact .inr ⟨y, List.mem_cons_of_mem _ hy, he⟩
      next hc =>
        rcases List.mem_cons.1 hr with rfl | hr
        · left
          simp only [Bool.and_eq_true, Bool.not_eq_true', not_and, Bool.not_eq_false,
            Option.any_eq_true] at hc
          obtain ⟨l, hl, hconf⟩ := hc hfit
          have hle := hlast l hl r List.mem_cons_self
          rw [conflictsWith_iff] at hconf
          unfold Precedes at hle
          exact ⟨l, hl, by omega⟩
        · exact exists_accept hrs hcomp'
            (fun l hl y hy => hlast l hl y (List.mem_cons_of_mem _ hy)) hr hfit

/-- Of compatible edits that fit, one at each start is accepted. -/
theorem exists_accepted {text : List Char} {rs : List Replacement} {r : Replacement}
    (hcomp : Compatible rs) (hr : r ∈ rs) (hfit : r.fits text = true) :
    ∃ x ∈ accepted text rs, x.start = r.start := by
  have hcomp' : Compatible (rs.mergeSort before) := fun x hx y hy =>
    hcomp x (List.mem_mergeSort.1 hx) y (List.mem_mergeSort.1 hy)
  have hnone : ∀ l ∈ (none : Option Replacement), ∀ x ∈ rs.mergeSort before,
      l.start = x.start ∨ l.Precedes x := by
    simp
  rcases exists_accept (pairwise_sorted rs) hcomp' hnone (List.mem_mergeSort.2 hr) hfit with
    ⟨l, hl, -⟩ | h
  · cases hl
  · exact h

/-- **As many compatible edits are accepted as there are starts.** -/
theorem length_accepted {text : List Char} {rs : List Replacement} (hcomp : Compatible rs)
    (hfit : ∀ r ∈ rs, r.fits text = true) :
    (accepted text rs).length = (rs.map start).dedup.length := by
  have hnodup : ((accepted text rs).map start).Nodup :=
    List.pairwise_map.2 ((accepted_apart text rs).imp fun h => Nat.ne_of_lt h.2)
  rw [← List.length_map (f := start)]
  apply List.Perm.length_eq
  rw [List.perm_ext_iff_of_nodup hnodup (List.nodup_dedup _)]
  intro place
  rw [List.mem_dedup, List.mem_map, List.mem_map]
  constructor
  · rintro ⟨r, hr, rfl⟩
    exact ⟨r, (mem_accepted hr).1, rfl⟩
  · rintro ⟨r, hr, rfl⟩
    obtain ⟨x, hx, hsame⟩ := exists_accepted hcomp hr (hfit r hr)
    exact ⟨x, hx, hsame⟩

theorem eq_of_start_eq {text : List Char} {rs : List Replacement} {r r' : Replacement}
    (hr : r ∈ accepted text rs) (hr' : r' ∈ accepted text rs) (h : r.start = r'.start) :
    r = r' := by
  have hpair : (accepted text rs).Pairwise fun a b => a.start ≠ b.start :=
    (accepted_apart text rs).imp fun hab => Nat.ne_of_lt hab.2
  have : Std.Symm fun a b : Replacement => a.start ≠ b.start := ⟨fun _ _ hab => hab.symm⟩
  by_contra hne
  exact hpair.forall hr hr' hne h

theorem filter_accepted_eq {text : List Char} {rs : List Replacement} {r : Replacement}
    {test : Replacement → Bool} (hr : r ∈ accepted text rs) (htest : test r = true)
    (h : ∀ x ∈ accepted text rs, test x = true → x.start = r.start) :
    (accepted text rs).filter test = [r] := by
  have hnodup : (accepted text rs).Nodup := by
    refine (accepted_apart text rs).imp (S := fun a b => a ≠ b) ?_
    rintro a _ hab rfl
    exact Nat.lt_irrefl _ hab.2
  rw [← List.perm_singleton,
    List.perm_ext_iff_of_nodup (hnodup.filter test) (List.nodup_singleton r)]
  intro x
  rw [List.mem_filter, List.mem_singleton]
  constructor
  · rintro ⟨hx, hxtest⟩
    exact eq_of_start_eq hx hr (h x hx hxtest)
  · rintro rfl
    exact ⟨hr, htest⟩

/-! ### Rewriting -/

/-- Edits of a text that starts at an offset, one after the other: something is kept, something is
cut out, the new text takes its place, and the rest is edited likewise. -/
inductive Rewrites : Nat → List Char → List Replacement → List Char → Prop
  | keep (k : Nat) (cs : List Char) : Rewrites k cs [] cs
  | replace {k : Nat} {kept cut rest out : List Char} {r : Replacement} {rs : List Replacement} :
      k + Text.byteLength kept = r.start → r.start + Text.byteLength cut = r.stop →
      Rewrites r.stop rest rs out →
      Rewrites k (kept ++ cut ++ rest) (r :: rs) (kept ++ r.newText.toList ++ out)

namespace Rewrites

variable {k : Nat} {cs out : List Char} {rs : List Replacement}

theorem bounds (h : Rewrites k cs rs out) : ∀ r ∈ rs, k ≤ r.start ∧ r.start ≤ r.stop := by
  induction h with
  | keep => simp
  | replace hk hc _ ih =>
      intro r hr
      rcases List.mem_cons.1 hr with rfl | hr
      · omega
      · have := ih r hr
        omega

theorem splice_eq (h : Rewrites k cs rs out) : splice k cs rs = out := by
  induction h with
  | keep => rfl
  | @replace k kept cut rest out r rs hk hc _ ih =>
      have hkept : Text.split? (kept ++ cut ++ rest) (r.start - k) = some (kept, cut ++ rest) :=
        Text.split?_eq_some_iff.2 ⟨by rw [List.append_assoc], by omega⟩
      have hcut : Text.split? (cut ++ rest) (r.stop - r.start) = some (cut, rest) :=
        Text.split?_eq_some_iff.2 ⟨rfl, by omega⟩
      simp only [splice, hkept, hcut, ih]

/-- Bytes that an edited text has: those of the old one and of what is put in, but for those that
are cut out. -/
theorem byteLength (h : Rewrites k cs rs out) :
    Text.byteLength out + (rs.map fun r => r.stop - r.start).sum =
      Text.byteLength cs + (rs.map fun r => Text.byteLength r.newText.toList).sum := by
  induction h with
  | keep => simp
  | replace hk hc _ ih =>
      simp only [Text.byteLength_append, List.map_cons, List.sum_cons]
      omega

theorem count_newline (h : Rewrites k cs rs out) (hins : ∀ r ∈ rs, r.stop = r.start) :
    out.count '\n' = cs.count '\n' + (rs.map fun r => r.newText.toList.count '\n').sum := by
  induction h with
  | keep => simp
  | @replace k kept cut rest out r rs hk hc _ ih =>
      have hr := hins r List.mem_cons_self
      have ih := ih fun x hx => hins x (List.mem_cons_of_mem _ hx)
      have hcut : Text.byteLength cut = 0 := by omega
      obtain rfl := Text.eq_nil_of_byteLength hcut
      simp only [List.count_append, List.map_cons, List.sum_cons, List.count_nil, ih]
      omega

end Rewrites

theorem rewrites_of_apart {text : List Char} : ∀ {rs : List Replacement} {front back : List Char},
    text = front ++ back → rs.Pairwise Precedes →
    (∀ r ∈ rs, r.fits text = true ∧ Text.byteLength front ≤ r.start) →
      ∃ out, Rewrites (Text.byteLength front) back rs out
  | [], front, back, _, _, _ => ⟨back, .keep _ _⟩
  | r :: rs, front, back, he, hs, hfit => by
      obtain ⟨hr, hrs⟩ := List.pairwise_cons.1 hs
      obtain ⟨hfits, hfront⟩ := hfit r List.mem_cons_self
      simp only [fits_iff, Text.isBoundary_iff] at hfits
      obtain ⟨hle, ⟨xs, ys, hxs, hstart⟩, zs, ws, hzs, hstop⟩ := hfits
      obtain ⟨kept, rfl, rfl⟩ := Text.exists_between (he.symm.trans hxs) (by omega)
      obtain ⟨cut, rfl, rfl⟩ := Text.exists_between (hxs.symm.trans hzs) (by omega)
      rw [Text.byteLength_append, hstart] at hstop
      rw [Text.byteLength_append] at hstart
      obtain ⟨out, hout⟩ := rewrites_of_apart hzs hrs fun x hx => by
        obtain ⟨hx', -⟩ := hfit x (List.mem_cons_of_mem _ hx)
        have := (hr x hx).1
        exact ⟨hx', by simp only [Text.byteLength_append]; omega⟩
      have hback : Text.byteLength (front ++ kept ++ cut) = r.stop := by
        simp only [Text.byteLength_append]
        omega
      rw [hback] at hout
      refine ⟨kept ++ r.newText.toList ++ out, ?_⟩
      rw [← List.append_assoc]
      exact .replace (by omega) (by omega) hout

theorem rewrites_accepted (text : List Char) (rs : List Replacement) :
    Rewrites 0 text (accepted text rs) (splice 0 text (accepted text rs)) := by
  have hwhole : text = [] ++ text := rfl
  obtain ⟨out, hout⟩ := rewrites_of_apart hwhole (accepted_apart text rs) fun r hr =>
    ⟨(mem_accepted hr).2, Nat.zero_le _⟩
  rw [Text.byteLength_nil] at hout
  rwa [hout.splice_eq]

/-! ### Places -/

/-- Whether an edit is in front of a place.  New text at the place itself is in front of what starts
there, and behind what ends there. -/
def isPassed (ends : Bool) (place : Nat) (r : Replacement) : Bool :=
  if ends then decide (r.start < place) else decide (r.start ≤ place)

/-- Where a place of the old text is in the new one, counted from where the offset is. -/
def moved (ends : Bool) (offset : Nat) (rs : List Replacement) (place : Nat) : Nat :=
  match rs with
  | [] => place - offset
  | r :: rest =>
    if r.isPassed ends place then
      r.start - offset + Text.byteLength r.newText.toList + moved ends r.stop rest place
    else place - offset

theorem le_start_of_not_isPassed {ends : Bool} {place : Nat} {r : Replacement}
    (h : ¬r.isPassed ends place = true) : place ≤ r.start := by
  unfold isPassed at h
  cases ends <;> simp at h <;> omega

theorem isPassed_mono {ends : Bool} {p q : Nat} (h : p ≤ q) (r : Replacement)
    (hr : r.isPassed ends p = true) : r.isPassed ends q = true := by
  unfold isPassed at hr ⊢
  cases ends <;> simp at hr ⊢ <;> omega

theorem isPassed_start {p q : Nat} (h : p ≤ q) (r : Replacement)
    (hr : r.isPassed true p = true) : r.isPassed false q = true := by
  simp only [isPassed, if_true, Bool.false_eq_true, if_false, decide_eq_true_eq] at hr ⊢
  omega

section order

variable {e e' : Bool} {p q : Nat}
  (hpass : ∀ r : Replacement, r.isPassed e p = true → r.isPassed e' q = true)
include hpass

theorem moved_le (hpq : p ≤ q) : ∀ (rs : List Replacement) (k : Nat),
    moved e k rs p ≤ moved e' k rs q
  | [], k => by
      unfold moved
      omega
  | r :: rs, k => by
      have ih := moved_le hpq rs r.stop
      unfold moved
      by_cases hp : r.isPassed e p = true
      · rw [if_pos hp, if_pos (hpass r hp)]
        omega
      · have := le_start_of_not_isPassed hp
        rw [if_neg hp]
        split <;> omega

omit hpass in
theorem moved_mono (e : Bool) (hpq : p ≤ q) (rs : List Replacement) (k : Nat) :
    moved e k rs p ≤ moved e k rs q :=
  moved_le (isPassed_mono hpq) hpq rs k

omit hpass in
theorem moved_apart (hpq : p ≤ q) (rs : List Replacement) (k : Nat) :
    moved true k rs p ≤ moved false k rs q :=
  moved_le (isPassed_start hpq) hpq rs k

end order

theorem moved_add {e : Bool} {p d : Nat} : ∀ {rs : List Replacement} {k : Nat}, k ≤ p →
    (∀ r ∈ rs, r.isPassed e (p + d) = r.isPassed false p ∧
      (r.isPassed false p = true → r.stop ≤ p)) →
      moved e k rs (p + d) = moved false k rs p + d
  | [], k, hk, _ => by
      unfold moved
      omega
  | r :: rs, k, hk, h => by
      obtain ⟨hr, hstop⟩ := h r List.mem_cons_self
      unfold moved
      rw [hr]
      split
      next hp =>
        rw [moved_add (hstop hp) fun x hx => h x (List.mem_cons_of_mem _ hx)]
        omega
      next => omega

namespace Rewrites

variable {k : Nat} {cs out : List Char} {rs : List Replacement}

/-- Edits of a text in two parts edit each part by itself, if none of them reaches over the place
between the parts. -/
theorem split (h : Rewrites k cs rs out) : ∀ {e : Bool} {place : Nat} {xs ys : List Char},
    cs = xs ++ ys → k + Text.byteLength xs = place →
    (∀ r ∈ rs, r.isPassed e place = true → r.stop ≤ place) →
      ∃ xs' ys', out = xs' ++ ys' ∧ Text.byteLength xs' = moved e k rs place ∧
        Rewrites k xs (rs.filter (isPassed e place)) xs' ∧
        Rewrites place ys (rs.filter fun r => !r.isPassed e place) ys' := by
  induction h with
  | keep k cs =>
      intro e place xs ys hcs hplace _
      refine ⟨xs, ys, hcs, ?_, .keep k xs, .keep place ys⟩
      unfold moved
      omega
  | @replace k kept cut rest out r rs hk hc hrest ih =>
      intro e place xs ys hcs hplace hpass
      unfold moved
      by_cases hp : r.isPassed e place = true
      · have hstop := hpass r List.mem_cons_self hp
        obtain ⟨xs₁, rfl, hys⟩ := Text.exists_between hcs
          (by simp only [Text.byteLength_append]; omega)
        simp only [Text.byteLength_append] at hplace
        obtain ⟨xs', ys', rfl, hlen, hx, hy⟩ := ih hys (by omega)
          fun x hx => hpass x (List.mem_cons_of_mem _ hx)
        refine ⟨kept ++ r.newText.toList ++ xs', ys', by simp, ?_, ?_, ?_⟩
        · rw [if_pos hp, ← hlen]
          simp only [Text.byteLength_append]
          omega
        · rw [List.filter_cons_of_pos hp]
          exact .replace hk hc hx
        · rw [List.filter_cons_of_neg (by simp [hp])]
          exact hy
      · have hstart := le_start_of_not_isPassed hp
        -- The edits that follow start no earlier, so none of them is in front of the place either.
        have hnone : ∀ x ∈ r :: rs, ¬x.isPassed e place = true := by
          intro x hx hpx
          rcases List.mem_cons.1 hx with rfl | hx
          · exact hp hpx
          · have := hrest.bounds x hx
            unfold isPassed at hp hpx
            cases e <;> simp at hp hpx <;> omega
        rw [List.append_assoc] at hcs
        obtain ⟨mid, rfl, hys⟩ := Text.exists_between hcs.symm (by omega)
        subst hys
        rw [Text.byteLength_append] at hk
        refine ⟨xs, mid ++ r.newText.toList ++ out, by simp, ?_, ?_, ?_⟩
        · rw [if_neg hp]
          omega
        · rw [List.filter_eq_nil_iff.2 hnone]
          exact .keep k xs
        · rw [List.filter_eq_self.2 fun x hx => by simp [hnone x hx], ← List.append_assoc]
          exact .replace (by omega) hc hrest

/-- A byte of the new text was put in by an edit, or has been in the old text outside of what the
edits cut out. -/
theorem origin (h : Rewrites k cs rs out) : ∀ {n : Nat} {c : Char}, Text.charAt? out n = some c →
    (∃ r ∈ rs, c ∈ r.newText.toList) ∨
      ∃ o, k ≤ o ∧ Text.charAt? cs (o - k) = some c ∧ moved false k rs o = n ∧
        ∀ r ∈ rs, o < r.start ∨ r.stop ≤ o := by
  induction h with
  | keep k cs =>
      intro n c hc
      refine .inr ⟨k + n, by omega, by rwa [Nat.add_sub_cancel_left], ?_, by simp⟩
      unfold moved
      omega
  | @replace k kept cut rest out r rs hk hcut hrest ih =>
      intro n c hc
      rw [List.append_assoc] at hc
      by_cases hn : n < Text.byteLength kept
      · rw [Text.charAt?_append_left hn] at hc
        refine .inr ⟨k + n, by omega, ?_, ?_, ?_⟩
        · rw [List.append_assoc, Nat.add_sub_cancel_left, Text.charAt?_append_left hn]
          exact hc
        · unfold moved
          rw [if_neg (by simp [isPassed]; omega)]
          omega
        · intro x hx
          rcases List.mem_cons.1 hx with rfl | hx
          · omega
          · have := hrest.bounds x hx
            omega
      rw [Text.charAt?_append_right (by omega)] at hc
      by_cases hn' : n - Text.byteLength kept < Text.byteLength r.newText.toList
      · rw [Text.charAt?_append_left hn'] at hc
        exact .inl ⟨r, List.mem_cons_self, Text.mem_of_charAt? hc⟩
      rw [Text.charAt?_append_right (by omega)] at hc
      rcases ih hc with ⟨x, hx, hcx⟩ | ⟨o, ho, hco, hmoved, hout⟩
      · exact .inl ⟨x, List.mem_cons_of_mem _ hx, hcx⟩
      · refine .inr ⟨o, by omega, ?_, ?_, ?_⟩
        · rw [Text.charAt?_append_right (by simp only [Text.byteLength_append]; omega)]
          rw [← hco]
          congr 1
          simp only [Text.byteLength_append]
          omega
        · unfold moved
          rw [if_pos (by simp [isPassed]; omega), hmoved]
          omega
        · intro x hx
          rcases List.mem_cons.1 hx with rfl | hx
          · omega
          · exact hout x hx

end Rewrites

end Interline.Replacement
