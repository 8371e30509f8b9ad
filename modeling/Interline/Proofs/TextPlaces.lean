import Mathlib
import Interline.JavaScript.Reader

/-! # Places of a text

What an offset of a text stands for.

* `positionAt?` is its line and column, counted as the reader counts them.  Only the number of line
  feeds in front matters for the line (`line_foldl_positionAfter`), and a line terminator has one
  of them (`newline_cases`).
* `charAt?` is the character that a byte belongs to.
* Cuts of one text are nested (`exists_between`), and a slice is what two cuts leave between them
  (`slice?_eq_some_iff`). -/

namespace Interline.Text

/-! ### Cuts -/

theorem eq_nil_of_byteLength {cs : List Char} (h : byteLength cs = 0) : cs = [] := by
  cases cs with
  | nil => rfl
  | cons c cs =>
      have := Char.utf8Size_pos c
      rw [byteLength_cons] at h
      omega

/-- Of two cuts of a text the later one keeps more. -/
theorem exists_between {xs ys zs ws : List Char} (h : xs ++ ys = zs ++ ws)
    (hle : byteLength xs ≤ byteLength zs) : ∃ mid, zs = xs ++ mid ∧ ys = mid ++ ws := by
  rcases List.append_eq_append_iff.1 h with ⟨mid, rfl, rfl⟩ | ⟨mid, rfl, rfl⟩
  · exact ⟨mid, rfl, rfl⟩
  · rw [byteLength_append] at hle
    have hmid : byteLength mid = 0 := by omega
    obtain rfl := eq_nil_of_byteLength hmid
    exact ⟨[], by simp, by simp⟩

theorem isBoundary_iff {cs : List Char} {n : Nat} :
    isBoundary cs n = true ↔ ∃ before after, cs = before ++ after ∧ byteLength before = n := by
  unfold isBoundary
  rw [drop?_eq_map_split?, Option.isSome_map, Option.isSome_iff_exists]
  constructor
  · rintro ⟨⟨before, after⟩, h⟩
    exact ⟨before, after, split?_eq_some_iff.1 h⟩
  · rintro ⟨before, after, h⟩
    exact ⟨(before, after), split?_eq_some_iff.2 h⟩

theorem le_of_isBoundary {cs : List Char} {n : Nat} (h : isBoundary cs n = true) :
    n ≤ byteLength cs := by
  obtain ⟨before, after, rfl, rfl⟩ := isBoundary_iff.1 h
  rw [byteLength_append]
  exact Nat.le_add_right _ _

/-- A slice is what two cuts leave between them. -/
theorem slice?_eq_some_iff {cs mid : List Char} {start stop : Nat} :
    slice? cs start stop = some mid ↔ ∃ before after, cs = before ++ mid ++ after ∧
      byteLength before = start ∧ start + byteLength mid = stop := by
  unfold slice?
  by_cases hlt : stop < start
  · rw [if_pos hlt]
    simp only [reduceCtorEq, false_iff, not_exists, not_and]
    intro before after _ _
    omega
  rw [if_neg hlt, drop?_eq_map_split?]
  simp only [Option.bind_eq_bind, Option.bind_eq_some_iff, Option.map_eq_some_iff, pure,
    Option.some.injEq, Prod.exists, split?_eq_some_iff]
  constructor
  · rintro ⟨_, ⟨before, _, ⟨rfl, hb⟩, rfl⟩, mid', after, ⟨rfl, hm⟩, rfl⟩
    exact ⟨before, after, by rw [List.append_assoc], hb, by omega⟩
  · rintro ⟨before, after, rfl, hb, hm⟩
    refine ⟨mid ++ after, ⟨before, mid ++ after, ⟨by rw [List.append_assoc], hb⟩, rfl⟩,
      mid, after, ⟨rfl, by omega⟩, rfl⟩

/-! ### Positions -/

/-- The position of an offset, if it is a place of the text. -/
def positionAt? (cs : List Char) (n : Nat) : Option Position :=
  (split? cs n).map fun parts => parts.1.foldl JavaScript.positionAfter ⟨1, 0⟩

/-- The span between two offsets; what is no place of the text stands at its start. -/
def spanAt (cs : List Char) (start stop : Nat) : Span where
  start := start
  stop := stop
  startPos := (positionAt? cs start).getD ⟨1, 0⟩
  stopPos := (positionAt? cs stop).getD ⟨1, 0⟩

theorem positionAt?_eq_some_iff {cs : List Char} {n : Nat} {p : Position} :
    positionAt? cs n = some p ↔ ∃ before after, cs = before ++ after ∧ byteLength before = n ∧
      before.foldl JavaScript.positionAfter ⟨1, 0⟩ = p := by
  unfold positionAt?
  simp only [Option.map_eq_some_iff, Prod.exists, split?_eq_some_iff, and_assoc]

theorem isBoundary_of_positionAt? {cs : List Char} {n : Nat} {p : Position}
    (h : positionAt? cs n = some p) : isBoundary cs n = true := by
  obtain ⟨before, after, e, hlen, -⟩ := positionAt?_eq_some_iff.1 h
  exact isBoundary_iff.2 ⟨before, after, e, hlen⟩

theorem line_foldl_positionAfter (cs : List Char) (p : Position) :
    (cs.foldl JavaScript.positionAfter p).line = p.line + cs.count '\n' := by
  induction cs generalizing p with
  | nil => simp
  | cons c cs ih =>
      rw [List.foldl_cons, ih, List.count_cons]
      unfold JavaScript.positionAfter
      by_cases hc : c = '\n'
      · simp only [hc, if_true, beq_self_eq_true]
        omega
      · simp only [hc, if_false, beq_iff_eq]
        omega

/-- The line of a place is told by the line feeds in front of it. -/
theorem line_of_split {cs xs ys : List Char} {n : Nat} {p : Position} (e : cs = xs ++ ys)
    (hx : byteLength xs = n) (hp : positionAt? cs n = some p) : p.line = 1 + xs.count '\n' := by
  rw [positionAt?_eq_some_iff.2 ⟨xs, ys, e, hx, rfl⟩] at hp
  rw [← Option.some.inj hp, line_foldl_positionAfter]

theorem line_le_of_positionAt? {cs : List Char} {i j : Nat} {p q : Position}
    (hp : positionAt? cs i = some p) (hq : positionAt? cs j = some q) (hij : i ≤ j) :
    p.line ≤ q.line := by
  obtain ⟨xs, ys, e, rfl, rfl⟩ := positionAt?_eq_some_iff.1 hp
  obtain ⟨zs, ws, e', rfl, rfl⟩ := positionAt?_eq_some_iff.1 hq
  obtain ⟨mid, rfl, -⟩ := exists_between (e.symm.trans e') hij
  rw [line_foldl_positionAfter, line_foldl_positionAfter, List.count_append]
  omega

theorem exists_slice {cs : List Char} {start stop : Nat} {p q : Position}
    (hp : positionAt? cs start = some p) (hq : positionAt? cs stop = some q)
    (hle : start ≤ stop) :
    ∃ mid, slice? cs start stop = some mid ∧ byteLength mid = stop - start := by
  obtain ⟨xs, ys, e, rfl, -⟩ := positionAt?_eq_some_iff.1 hp
  obtain ⟨zs, ws, e', rfl, -⟩ := positionAt?_eq_some_iff.1 hq
  obtain ⟨mid, rfl, rfl⟩ := exists_between (e.symm.trans e') hle
  rw [byteLength_append]
  refine ⟨mid, slice?_eq_some_iff.2 ⟨xs, ws, by rw [e, List.append_assoc], rfl, rfl⟩, ?_⟩
  omega

/-! ### Line terminators -/

theorem newline_cases (cs : List Char) : newline cs = ['\n'] ∨ newline cs = ['\r', '\n'] := by
  fun_induction newline cs with
  | case1 => exact .inr rfl
  | case2 => exact .inl rfl
  | case3 c rest _ _ ih => exact ih
  | case4 => exact .inl rfl

theorem count_newline (cs : List Char) : (newline cs).count '\n' = 1 := by
  rcases newline_cases cs with h | h <;> rw [h] <;> rfl

/-- The line terminator of a text, so many times. -/
def lineEnds (cs : List Char) (copies : Nat) : List Char :=
  (List.replicate copies (newline cs)).flatten

theorem count_lineEnds (cs : List Char) (copies : Nat) :
    (lineEnds cs copies).count '\n' = copies := by
  unfold lineEnds
  induction copies with
  | zero => rfl
  | succ copies ih =>
      rw [List.replicate_succ, List.flatten_cons, List.count_append, count_newline, ih]
      omega

theorem mem_newline {cs : List Char} {c : Char} (h : c ∈ newline cs) : c = '\n' ∨ c = '\r' := by
  rcases newline_cases cs with e | e <;> rw [e] at h
  · exact .inl (List.mem_singleton.1 h)
  · simpa [or_comm] using h

/-! ### Bytes -/

/-- The character that a byte of the text belongs to. -/
def charAt? : List Char → Nat → Option Char
  | [], _ => none
  | c :: cs, n => if n < c.utf8Size then some c else charAt? cs (n - c.utf8Size)

theorem charAt?_append_left {xs ys : List Char} {n : Nat} (h : n < byteLength xs) :
    charAt? (xs ++ ys) n = charAt? xs n := by
  induction xs generalizing n with
  | nil => simp at h
  | cons x xs ih =>
      rw [byteLength_cons] at h
      rw [List.cons_append, charAt?, charAt?]
      split
      · rfl
      · exact ih (by omega)

theorem charAt?_append_right {xs ys : List Char} {n : Nat} (h : byteLength xs ≤ n) :
    charAt? (xs ++ ys) n = charAt? ys (n - byteLength xs) := by
  induction xs generalizing n with
  | nil => simp
  | cons x xs ih =>
      rw [byteLength_cons] at h
      rw [List.cons_append, charAt?, if_neg (by omega), ih (by omega), byteLength_cons,
        Nat.sub_sub]

theorem mem_of_charAt? {cs : List Char} {n : Nat} {c : Char} (h : charAt? cs n = some c) :
    c ∈ cs := by
  induction cs generalizing n with
  | nil => cases h
  | cons x xs ih =>
      rw [charAt?] at h
      split at h
      · cases h
        exact List.mem_cons_self
      · exact List.mem_cons_of_mem _ (ih h)

theorem lt_of_charAt? {cs : List Char} {n : Nat} {c : Char} (h : charAt? cs n = some c) :
    n < byteLength cs := by
  induction cs generalizing n with
  | nil => cases h
  | cons x xs ih =>
      rw [charAt?] at h
      rw [byteLength_cons]
      split at h
      next => omega
      next =>
        have := ih h
        omega

theorem exists_charAt? {cs : List Char} {n : Nat} (h : n < byteLength cs) :
    ∃ c, charAt? cs n = some c := by
  induction cs generalizing n with
  | nil => simp at h
  | cons x xs ih =>
      rw [byteLength_cons] at h
      rw [charAt?]
      split
      · exact ⟨x, rfl⟩
      · exact ih (by omega)

end Interline.Text
