import Interline.Text

/-! # Replacements

Edits of a text.  `applyAll` takes any list of replacements, drops those that do not fit the text
and those in conflict with one taken before, and splices the rest in one pass. -/

namespace Interline

/-- New text for a range of bytes. -/
structure Replacement where
  start : Nat
  stop : Nat
  newText : String
deriving DecidableEq

namespace Replacement

def insertion (offset : Nat) (text : String) : Replacement := ⟨offset, offset, text⟩

def removal (start stop : Nat) : Replacement := ⟨start, stop, ""⟩

def isInsertion (r : Replacement) : Bool := r.start == r.stop

/-- Order by start, then by end. -/
def before (a b : Replacement) : Bool :=
  decide (a.start < b.start) || (a.start == b.start && decide (a.stop ≤ b.stop))

/-- Whether both ends are places of the text, in order. -/
def fits (text : List Char) (r : Replacement) : Bool :=
  decide (r.start ≤ r.stop) && Text.isBoundary text r.start && Text.isBoundary text r.stop

/-- Whether a replacement gets in the way of the one taken before it.  Two at one start do, even
when both only insert. -/
def conflictsWith (r earlier : Replacement) : Bool :=
  decide (r.start < earlier.stop) || r.start == earlier.start

/-- The replacements taken from an ordered list, given the one taken last. -/
def accept (text : List Char) : Option Replacement → List Replacement → List Replacement
  | _, [] => []
  | last, r :: rest =>
    if r.fits text && !last.any r.conflictsWith then r :: accept text (some r) rest
    else accept text last rest

/-- The replacements of a list that are applied together, in the order of the text. -/
def accepted (text : List Char) (rs : List Replacement) : List Replacement :=
  accept text none (rs.mergeSort before)

/-- Writes ordered replacements into the text that starts at `offset`. -/
def splice (offset : Nat) (text : List Char) : List Replacement → List Char
  | [] => text
  | r :: rest =>
    match Text.split? text (r.start - offset) with
    | none => text
    | some (kept, after) =>
      match Text.split? after (r.stop - r.start) with
      | none => text
      | some (_, remaining) =>
        kept ++ r.newText.toList ++ splice r.stop remaining rest

/-- An edited text with the number of replacements that took part and that did not. -/
structure Outcome where
  text : String
  applied : Nat
  skipped : Nat

def Outcome.isChanged (o : Outcome) : Bool := decide (0 < o.applied)

/-- Applies as many replacements as go together. -/
def applyAll (text : String) (rs : List Replacement) : Outcome :=
  let taken := accepted text.toList rs
  { text := String.ofList (splice 0 text.toList taken)
    applied := taken.length
    skipped := rs.length - taken.length }

end Replacement
end Interline
