import Interline.Linebreaks
import Interline.Replacement
import Interline.Requirement

/-! # Repairs

The edit that makes a pair of statements comply.  Line breaks are always free to insert.  They are
taken out only where no comment lies between the statements and where the first one ends on its
own, so that it cannot run on into the second. -/

namespace Interline.Repair

/-- Statements that end with their body's brace, whatever follows. -/
def endsWithBody : NodeKind → Bool
  | .statement k =>
    match k with
    | .block | .conditional | .for | .forIn | .while | .switch | .try | .with
    | .functionDeclaration | .classDeclaration => true
    | _ => false
  | _ => false

/-- Whether a statement with this last token ends without the help of a line break. -/
def endsExplicitly (m : SourceModel) (statement : Nat) (last : Token) :
    Except ModelError Bool := do
  if last.isSemicolon then return true
  else if !last.endsBody then return false
  else
    let n ← m.node (← m.unwrapLabels statement)
    return endsWithBody n.kind

/-- Joins two statements, if that is safe. -/
def join (m : SourceModel) (previous next : Nat) : Except ModelError (Option Replacement) := do
  let last ← m.lastToken previous
  let first ← m.firstToken next
  match m.token? last, m.token? first with
  | some a, some b =>
    if (m.tokens.between last first true).any Token.isComment then return none
    else if ← endsExplicitly m previous a then
      return some (.removal a.span.stop b.span.start)
    else return none
  | _, _ => return none

/-- Breaks the line after a token; twice when the rest of its line would otherwise stay on the
line before the blank one. -/
def breakAfter (m : SourceModel) (last : Nat) (blank : Bool) : Option Replacement := do
  let token ← m.token? last
  let eol := Text.newline m.text.toList
  let sharesLine := match (m.tokens.after last true).bind m.token? with
    | none => true
    | some next => next.span.startPos.line == token.span.stopPos.line
  let text := if blank && sharesLine then eol ++ eol else eol
  return .insertion token.span.stop (String.ofList text)

/-- The edit that brings two statements to a requirement, if there is a safe one. -/
def propose (r : Requirement) (m : SourceModel) (previous next : Nat) :
    Except ModelError (Option Replacement) :=
  match r with
  | .any => return none
  | .never => join m previous next
  | .always => return breakAfter m (← m.lastToken previous) false
  | .blankLine => return breakAfter m (← m.lastToken previous) true

end Interline.Repair
