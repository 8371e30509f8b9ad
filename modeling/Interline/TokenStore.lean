import Interline.Token

/-! # The token stream of a file

Tokens in the order of their starts, addressed by index.  The searches below take a span or an
index and answer with an index; all of them can be told to pass over comments. -/

namespace Interline

/-- Tokens in the order of their start offsets. -/
structure TokenStore where
  toList : List Token
  sorted : toList.Pairwise fun a b => a.span.start ≤ b.span.start

namespace TokenStore

/-- Whether a token starts no later than another. -/
def startsBy (a b : Token) : Bool := decide (a.span.start ≤ b.span.start)

/-- Orders tokens by start offset; tokens with the same start keep their order. -/
def ofList (tokens : List Token) : TokenStore where
  toList := tokens.mergeSort startsBy
  sorted := by
    have h : (tokens.mergeSort startsBy).Pairwise fun a b => startsBy a b :=
      List.pairwise_mergeSort (by simp only [startsBy, decide_eq_true_eq]; omega)
        (by simp only [startsBy, Bool.or_eq_true, decide_eq_true_eq]; omega) tokens
    exact h.imp (by simp [startsBy])

variable (s : TokenStore)

def size : Nat := s.toList.length

def isEmpty : Bool := s.toList.isEmpty

def get? (i : Nat) : Option Token := s.toList[i]?

/-- Whether a search that passes over comments on request stops at this token. -/
def counts (withComments : Bool) (t : Token) : Bool := withComments || !t.isComment

/-- The first token inside the span that is no comment. -/
def firstIn (span : Span) : Option Nat :=
  let skipped := (s.toList.takeWhile fun t => decide (t.span.start < span.start)).length
  let inside := (s.toList.drop skipped).takeWhile fun t => decide (t.span.stop ≤ span.stop)
  (inside.findIdx? fun t => !t.isComment).map (skipped + ·)

/-- The last accepted token inside the span that is no comment. -/
def lastIn (span : Span) (accept : Token → Bool) : Option Nat :=
  let reached := s.toList.takeWhile fun t => decide (t.span.start < span.stop)
  let inside := reached.reverse.takeWhile fun t => decide (span.start ≤ t.span.start)
  (inside.findIdx? fun t => decide (t.span.stop ≤ span.stop) && !t.isComment && accept t).map
    (reached.length - 1 - ·)

/-- The nearest token before the index. -/
def before (i : Nat) (withComments : Bool) : Option Nat :=
  let earlier := s.toList.take i
  (earlier.reverse.findIdx? (counts withComments)).map (earlier.length - 1 - ·)

/-- The nearest token after the index. -/
def after (i : Nat) (withComments : Bool) : Option Nat :=
  ((s.toList.drop (i + 1)).findIdx? (counts withComments)).map (i + 1 + ·)

/-- The tokens strictly between two indices. -/
def between (i j : Nat) (withComments : Bool) : List Token :=
  ((s.toList.take j).drop (i + 1)).filter (counts withComments)

/-- A search after an index goes forward. -/
theorem lt_of_after {s : TokenStore} {i j : Nat} {withComments : Bool}
    (h : s.after i withComments = some j) :
    i < j ∧ j < s.size := by
  simp only [after, Option.map_eq_some_iff] at h
  obtain ⟨k, hk, rfl⟩ := h
  have := (List.findIdx?_eq_some_iff_getElem.1 hk).1
  simp only [List.length_drop] at this
  simp only [size]
  omega

end TokenStore
end Interline
