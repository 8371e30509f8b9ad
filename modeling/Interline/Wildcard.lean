/-! # Wildcards

Patterns for paths, as lists of wildcards.  How they are written differs from one list of patterns
to another; what they match is said here, by `Wildcard.accepts`. -/

namespace Interline

/-- A set of characters: those in some range, or those in none. -/
structure CharSet where
  negated : Bool
  ranges : List (Char × Char)
deriving DecidableEq

namespace CharSet

def all : CharSet := ⟨true, []⟩

def one (c : Char) : CharSet := ⟨false, [(c, c)]⟩

/-- All characters of the names between separators. -/
def inNames : CharSet := ⟨true, [('/', '/')]⟩

def has (s : CharSet) (c : Char) : Bool :=
  (s.ranges.any fun (first, last) => decide (first ≤ c) && decide (c ≤ last)) != s.negated

end CharSet

/-- A part of a pattern: one character, a run of characters, or a run of whole directories. -/
inductive Wildcard
  | char (set : CharSet)
  | run (set : CharSet)
  | directories
deriving DecidableEq

namespace Wildcard

/-- What is left of a text behind each run of characters from a set, the empty run first. -/
def behindRuns (set : CharSet) : List Char → List (List Char)
  | [] => [[]]
  | c :: cs => (c :: cs) :: if set.has c then behindRuns set cs else []

/-- What is left of a text behind each of its separators. -/
def behindSeparators : List Char → List (List Char)
  | [] => []
  | c :: cs => if c = '/' then cs :: behindSeparators cs else behindSeparators cs

/-- Whether a pattern matches a whole text. -/
def accepts : List Wildcard → List Char → Bool
  | [], text => text.isEmpty
  | .char _ :: _, [] => false
  | .char set :: rest, c :: cs => set.has c && accepts rest cs
  | .run set :: rest, text => (behindRuns set text).any (accepts rest)
  | .directories :: rest, text => (text :: behindSeparators text).any (accepts rest)

end Wildcard
end Interline
