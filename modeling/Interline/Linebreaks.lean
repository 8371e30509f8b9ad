import Interline.SourceModel

/-! # Line breaks between two statements

The distance of two statements is 0 on one line, 1 on different lines and 2 when a blank line lies
between them.  A line with a comment on it is not blank, so the distance is read off the gaps
between consecutive tokens, comments included. -/

namespace Interline.Linebreaks

/-- Whether some gap from token `i` on leaves a line free, up to the first token that starts at or
after `target`. -/
def hasBlankLine (s : TokenStore) (target : Nat) (i : Nat) : Bool :=
  match _hn : s.after i true with
  | none => false
  | some next =>
    match s.get? i, s.get? next with
    | some a, some b =>
      if 2 ≤ b.span.startPos.line - a.span.stopPos.line then true
      else if target ≤ b.span.start then false
      else hasBlankLine s target next
    | _, _ => false
termination_by s.size - i
decreasing_by
  have := TokenStore.lt_of_after _hn
  omega

/-- Line breaks between two tokens, two standing for a blank line. -/
def betweenTokens (s : TokenStore) (last first : Nat) : Nat :=
  match s.get? last, s.get? first with
  | some a, some b =>
    if b.span.startPos.line ≤ a.span.stopPos.line then 0
    else if b.span.startPos.line - a.span.stopPos.line = 1 then 1
    else if hasBlankLine s b.span.start last then 2
    else 1
  | _, _ => 0

/-- Line breaks between two statements, two standing for a blank line. -/
def count (m : SourceModel) (previous next : Nat) : Except ModelError Nat := do
  let last ← m.lastToken previous
  let first ← m.firstToken next
  return betweenTokens m.tokens last first

end Interline.Linebreaks
