import Interline.JavaScript.Lexeme

/-! # Line ends that stand for semicolons

A statement without a semicolon ends where a line does, unless the next line goes on with it; it
also ends before a closing brace and at the end of the text.  `endsStatement` decides this from the
text that follows, given that a semicolon could stand here.  The text also bounds the steps of every
search in it. -/

namespace Interline.JavaScript

/-- How white space and comments between two tokens end. -/
inductive GapEnd
  | slash
  | sameLine
  | code
deriving DecidableEq

/-- Passes over white space and comments.  Where `whole` is not set, this stops behind the first
comment between slashes and stars, unless a slash follows it at once. -/
def skipGap (whole : Bool) (cs : List Char) : GapEnd × List Char := go cs false cs
where
  go : List Char → Bool → List Char → GapEnd × List Char
    | [], _, cs => (.code, cs)
    | _ :: bound, hasLineEnd, cs =>
      match cs.dropWhile isPlainSpace with
      | '/' :: '/' :: rest => go bound hasLineEnd (rest.dropWhile fun c => !isLineEnd c)
      | '/' :: '*' :: rest =>
        match afterBlockComment hasLineEnd rest with
        | none => (.code, [])
        | some (hasLineEnd, after) =>
          if after.head? != some '/' && !whole then
            (if hasLineEnd then .code else .sameLine, after)
          else go bound hasLineEnd after
      | '/' :: rest => (.slash, rest)
      | rest => (.code, rest)

/-- Whether a new line that starts like this starts a new statement.  Operators that need something
in front go on with the old one. -/
def startsStatement (cs : List Char) : Bool :=
  match cs with
  | '.' :: rest => rest.head?.any Char.isDigit
  | '+' :: rest => rest.head? == some '+'
  | '-' :: rest => rest.head? == some '-'
  | '!' :: rest => rest.head? != some '='
  | 'i' :: 'n' :: rest =>
    let tail := "stanceof".toList
    if !(rest.head?.any Char.isAlpha) then false
    else if tail.isPrefixOf rest then (rest.drop tail.length).head?.any Char.isAlpha
    else true
  | c :: _ => !("\x60,:;*%><=[(?^|&/".toList.contains c)
  | [] => true

/-- Whether a statement ends here without a semicolon.  `commentEnds` is set where no operator can
follow; there, a comment that reaches the next line is a line end. -/
def endsStatement (commentEnds : Bool) (cs : List Char) : Bool := go cs cs
where
  go : List Char → List Char → Bool
    | _, [] => true
    | [], _ => false
    | _ :: bound, cs =>
      let (gap, rest) := match cs with
        | '/' :: _ => skipGap false cs
        | _ => (.sameLine, cs)
      if gap = .slash then false
      else if gap = .code && commentEnds && rest.head? != some ',' && rest.head? != some '=' then
        true
      else
        match rest with
        | [] => false
        | c :: after =>
          if c == '\x7d' then true
          else if isLineEnd c then
            match skipGap true after with
            | (.slash, _) => false
            | (_, next) => startsStatement next
          else if isPlainSpace c then go bound after
          else false

/-- The same, where comments in front do not decide it: each is passed over and the question asked
again behind it. -/
def endsAhead (commentEnds : Bool) (cs : List Char) : Bool := go cs cs
where
  go : List Char → List Char → Bool
    | [], cs => endsStatement commentEnds cs
    | _ :: bound, cs =>
      if endsStatement commentEnds cs then true
      else
        let rest := cs.dropWhile isSpace
        match commentLength false rest with
        | 0 => false
        | k => go bound (rest.drop k)

end Interline.JavaScript
