import Interline.Wildcard

/-! # Patterns for files to leave out

The patterns by which a configuration excludes files.  A star and a question mark match separators
too; two stars stand for directories and must fill the space between two separators; brackets hold
a class, negated by an exclamation mark. -/

namespace Interline

structure Glob where
  wildcards : List Wildcard
deriving DecidableEq

namespace Glob

/-- The ranges written in a class. -/
def rangesOf : List Char → List (Char × Char)
  | first :: '-' :: last :: rest => (first, last) :: rangesOf rest
  | c :: rest => (c, c) :: rangesOf rest
  | [] => []

/-- Reads the members of a class up to its closing bracket.  There is at least one, which may be a
closing bracket itself. -/
def members? : List Char → Option (List Char × List Char)
  | [] => none
  | first :: rest =>
    match rest.dropWhile (· ≠ ']') with
    | [] => none
    | _ :: after => some (first :: rest.takeWhile (· ≠ ']'), after)

/-- Reads a class behind its opening bracket. -/
def class? (cs : List Char) : Option (CharSet × List Char) :=
  match cs with
  | '!' :: rest => (members? rest).map fun (members, after) => (⟨true, rangesOf members⟩, after)
  | _ => (members? cs).map fun (members, after) => (⟨false, rangesOf members⟩, after)

theorem members?_length {cs members after : List Char} (h : members? cs = some (members, after)) :
    after.length < cs.length := by
  cases cs with
  | nil => simp [members?] at h
  | cons first rest =>
    have hle := (List.dropWhile_sublist (· ≠ ']') (l := rest)).length_le
    simp only [members?] at h
    split at h
    · simp at h
    next hd =>
      simp only [Option.some.injEq, Prod.mk.injEq] at h
      obtain ⟨-, rfl⟩ := h
      rw [hd] at hle
      simp only [List.length_cons] at hle ⊢
      omega

theorem class?_length {cs after : List Char} {set : CharSet} (h : class? cs = some (set, after)) :
    after.length < cs.length := by
  unfold class? at h
  split at h <;> simp only [Option.map_eq_some_iff, Prod.exists, Prod.mk.injEq] at h <;>
    obtain ⟨members, rest, hm, -, rfl⟩ := h
  · exact Nat.lt_succ_of_lt (members?_length hm)
  · exact members?_length hm

/-- Reads a pattern; `atStart` says that the text before is empty or ends with a separator.  Two
stars at the end match all that is left, with or without a separator behind them. -/
def wildcards? (atStart : Bool) (cs : List Char) : Option (List Wildcard) :=
  match cs with
  | [] => some []
  | '?' :: rest => (wildcards? false rest).map (.char .all :: ·)
  | ['*', '*'] => if atStart then some [.run .all] else none
  | ['*', '*', '/'] => if atStart then some [.run .all] else none
  | '*' :: '*' :: '/' :: rest =>
    if atStart then (wildcards? true rest).map (.directories :: ·) else none
  | '*' :: '*' :: _ => none
  | '*' :: rest => (wildcards? false rest).map (.run .all :: ·)
  | '[' :: rest =>
    match _hc : class? rest with
    | none => none
    | some (set, after) => (wildcards? false after).map (.char set :: ·)
  | c :: rest => (wildcards? (c == '/') rest).map (.char (.one c) :: ·)
termination_by cs.length
decreasing_by
  · simp
  · simp only [List.length_cons]
    omega
  · simp
  · have := class?_length _hc
    simp only [List.length_cons]
    omega
  · simp

/-- The pattern of a text; some texts are none. -/
def parse? (text : String) : Option Glob := do
  return ⟨← wildcards? true text.toList⟩

def accepts (g : Glob) (path : String) : Bool := Wildcard.accepts g.wildcards path.toList

end Glob
end Interline
