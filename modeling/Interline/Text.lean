/-! # Texts and byte offsets

A text is a list of characters, and an offset counts the bytes of its UTF-8 encoding.  An offset
that falls inside a character names no place of the text, so every cut is partial:

* `split?` cuts a text at an offset, and `split?_eq_some_iff` says that it does nothing else;
* `drop?` keeps only the part behind the cut;
* `slice?` takes the characters between two offsets;
* `newline` is the line terminator that a text uses. -/

namespace Interline.Text

/-- Bytes that the characters take. -/
def byteLength : List Char → Nat
  | [] => 0
  | c :: cs => c.utf8Size + byteLength cs

@[simp] theorem byteLength_nil : byteLength [] = 0 := rfl

@[simp] theorem byteLength_cons (c : Char) (cs : List Char) :
    byteLength (c :: cs) = c.utf8Size + byteLength cs := rfl

@[simp] theorem byteLength_append (as bs : List Char) :
    byteLength (as ++ bs) = byteLength as + byteLength bs := by
  induction as with
  | nil => simp
  | cons a as ih => simp [ih, Nat.add_assoc]

/-- Cuts a text at a byte offset; fails inside a character and beyond the end. -/
def split? : List Char → Nat → Option (List Char × List Char)
  | cs, 0 => some ([], cs)
  | [], _ + 1 => none
  | c :: cs, n + 1 =>
    if c.utf8Size ≤ n + 1 then
      (split? cs (n + 1 - c.utf8Size)).map fun (before, after) => (c :: before, after)
    else none

@[simp] theorem split?_zero (cs : List Char) : split? cs 0 = some ([], cs) := by
  cases cs <;> rfl

/-- A cut is exactly a way to write the text as two parts, the first of the given length. -/
theorem split?_eq_some_iff {cs before after : List Char} {n : Nat} :
    split? cs n = some (before, after) ↔ cs = before ++ after ∧ byteLength before = n := by
  induction cs generalizing n before with
  | nil =>
    cases n with
    | zero => cases before <;> simp [split?, eq_comm]
    | succ n => cases before <;> simp [split?]
  | cons c cs ih =>
    have hpos := Char.utf8Size_pos c
    cases n with
    | zero =>
      cases before with
      | nil => simp [eq_comm]
      | cons b bs =>
        have := Char.utf8Size_pos b
        simp
        omega
    | succ n =>
      unfold split?
      cases before with
      | nil => simp
      | cons b bs =>
        split
        next h =>
          simp only [Option.map_eq_some_iff, Prod.mk.injEq, List.cons.injEq, Prod.exists,
            List.cons_append, byteLength_cons]
          constructor
          · rintro ⟨x, y, hxy, ⟨rfl, rfl⟩, rfl⟩
            obtain ⟨h1, h2⟩ := ih.1 hxy
            exact ⟨⟨rfl, h1⟩, by omega⟩
          · rintro ⟨⟨rfl, h1⟩, h2⟩
            exact ⟨bs, after, ih.2 ⟨h1, by omega⟩, ⟨rfl, rfl⟩, rfl⟩
        next h =>
          simp only [reduceCtorEq, List.cons_append, List.cons.injEq, byteLength_cons, false_iff]
          rintro ⟨⟨rfl, _⟩, h2⟩
          omega

/-- The text behind a byte offset; fails inside a character and beyond the end. -/
def drop? : List Char → Nat → Option (List Char)
  | cs, 0 => some cs
  | [], _ + 1 => none
  | c :: cs, n + 1 => if c.utf8Size ≤ n + 1 then drop? cs (n + 1 - c.utf8Size) else none

theorem drop?_eq_map_split? (cs : List Char) (n : Nat) :
    drop? cs n = (split? cs n).map Prod.snd := by
  fun_induction drop? cs n with
  | case1 cs => simp
  | case2 n => rfl
  | case3 c cs n h ih => simp [split?, h, ih, Function.comp_def]
  | case4 c cs n h => simp [split?, h]

/-- Whether an offset is the start of a character or the end of the text. -/
def isBoundary (cs : List Char) (n : Nat) : Bool :=
  (drop? cs n).isSome

/-- The characters between two offsets, if both are places of the text in this order. -/
def slice? (cs : List Char) (start stop : Nat) : Option (List Char) := do
  if stop < start then none
  else
    let (middle, _) ← split? (← drop? cs start) (stop - start)
    return middle

/-- The line terminator of a text is that of its first line, and a bare line feed if it has none. -/
def newline : List Char → List Char
  | '\r' :: '\n' :: _ => ['\r', '\n']
  | '\n' :: _ => ['\n']
  | _ :: rest => newline rest
  | [] => ['\n']

end Interline.Text
