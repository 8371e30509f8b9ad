/-! # The words of JavaScript

How far a lexeme reaches into the text in front of it, in characters.  Zero means that there is no
such lexeme here.  Which lexemes may stand at a place is for the grammar to say: a slash can open a
regular expression or divide. -/

namespace Interline.JavaScript

/-- Characters taken by repeating a piece as often as it is found.  As every piece takes some, the
text itself bounds the number of steps. -/
def runLength (piece : List Char → Nat) (cs : List Char) : Nat := go cs cs
where
  go : List Char → List Char → Nat
    | [], _ => 0
    | _ :: bound, cs =>
      match piece cs with
      | 0 => 0
      | k + 1 => k + 1 + go bound (cs.drop (k + 1))

/-! ### Character classes -/

/-- White space of ASCII, which is what counts when a line end may stand for a semicolon. -/
def isPlainSpace (c : Char) : Bool :=
  c == ' ' || (decide ('\t' ≤ c) && decide (c ≤ '\r'))

/-- White space between tokens: that of Unicode, the byte order mark and two characters without
width. -/
def isSpace (c : Char) : Bool :=
  let n := c.toNat
  isPlainSpace c || n == 0x85 || n == 0xA0 || n == 0x1680 || (0x2000 ≤ n && n ≤ 0x200B) ||
    n == 0x2028 || n == 0x2029 || n == 0x202F || n == 0x205F || n == 0x2060 || n == 0x3000 ||
    n == 0xFEFF

/-- Characters that end a comment on one line, the carriage return aside. -/
def isLineEnd (c : Char) : Bool := c == '\n' || c == '\u2028' || c == '\u2029'

def isHexDigit (c : Char) : Bool :=
  c.isDigit || (decide ('a' ≤ c) && decide (c ≤ 'f')) || (decide ('A' ≤ c) && decide (c ≤ 'F'))

def isOctalDigit (c : Char) : Bool := decide ('0' ≤ c) && decide (c ≤ '7')

/-- Characters that no name holds, digits aside: controls, white space and ASCII punctuation other
than the dollar sign and the underscore. -/
def isDelimiter (c : Char) : Bool :=
  decide (c.toNat < 0x20) || isSpace c || ":;\x60\"\x27@#.,|^&<=>+-*/\\%?!~()[]\x7b\x7d".toList.contains c

/-! ### Escapes and names -/

/-- An escape for a code point, its backslash included. -/
def unicodeEscapeLength (cs : List Char) : Nat :=
  match cs with
  | '\\' :: 'u' :: '\x7b' :: rest =>
    let digits := (rest.takeWhile isHexDigit).length
    if 0 < digits && (rest.drop digits).head? == some '\x7d' then digits + 4 else 0
  | '\\' :: 'u' :: rest => if ((rest.take 4).takeWhile isHexDigit).length = 4 then 6 else 0
  | _ => 0

/-- An escape in a string or template, its backslash included. -/
def escapeLength (cs : List Char) : Nat :=
  match cs with
  | '\\' :: 'u' :: _ => unicodeEscapeLength cs
  | '\\' :: 'x' :: rest => if ((rest.take 2).takeWhile isHexDigit).length = 2 then 4 else 0
  | '\\' :: '\r' :: '\n' :: _ => 3
  | '\\' :: '?' :: '\n' :: _ => 3
  | '\\' :: c :: rest =>
    if isOctalDigit c then 2 + ((rest.take 2).takeWhile isOctalDigit).length else 2
  | _ => 0

/-- One character of a name. -/
def namePieceLength (first : Bool) (cs : List Char) : Nat :=
  match cs with
  | [] => 0
  | '\\' :: _ => unicodeEscapeLength cs
  | c :: _ => if isDelimiter c || (first && c.isDigit) then 0 else 1

/-- A name or keyword. -/
def wordLength (cs : List Char) : Nat :=
  match namePieceLength true cs with
  | 0 => 0
  | k => k + runLength (namePieceLength false) (cs.drop k)

/-- The name or keyword in front of a text; empty if there is none. -/
def wordOf (cs : List Char) : String := String.ofList (cs.take (wordLength cs))

/-- A private name. -/
def privateNameLength (cs : List Char) : Nat :=
  match cs with
  | '#' :: rest =>
    match wordLength rest with
    | 0 => 0
    | k => k + 1
  | _ => 0

/-- Words that are no names. -/
def reservedWords : List String :=
  ["break", "case", "catch", "class", "const", "continue", "debugger", "default", "delete", "do",
    "else", "export", "extends", "false", "finally", "for", "function", "if", "import", "in",
    "instanceof", "new", "null", "return", "super", "switch", "this", "throw", "true", "try",
    "typeof", "var", "void", "while", "with"]

def isReserved (word : String) : Bool := reservedWords.contains word

/-! ### Literals -/

/-- A string in either kind of quotes. -/
def stringLength (cs : List Char) : Nat :=
  match cs with
  | quote :: rest =>
    if quote == '\x22' || quote == '\x27' then
      let piece (cs : List Char) : Nat :=
        match cs with
        | [] => 0
        | '\\' :: _ => escapeLength cs
        | c :: _ => if c == quote || c == '\n' || c == '\r' then 0 else 1
      let body := runLength piece rest
      if (rest.drop body).head? == some quote then body + 2 else 0
    else 0
  | [] => 0

/-- A bracketed class inside a regular expression. -/
def regexClassLength (cs : List Char) : Nat :=
  match cs with
  | '[' :: rest =>
    let piece (cs : List Char) : Nat :=
      match cs with
      | '\\' :: c :: _ => if c == '\n' then 0 else 2
      | c :: _ => if c == ']' || c == '\n' || c == '\\' then 0 else 1
      | [] => 0
    let body := runLength piece rest
    if (rest.drop body).head? == some ']' then body + 2 else 0
  | _ => 0

/-- A regular expression with its flags. -/
def regexLength (cs : List Char) : Nat :=
  match cs with
  | '/' :: rest =>
    let piece (cs : List Char) : Nat :=
      match cs with
      | '[' :: _ => regexClassLength cs
      | '\\' :: c :: _ => if c == '\n' then 0 else 2
      | c :: _ => if c == '/' || c == '\n' || c == '\\' then 0 else 1
      | [] => 0
    let body := runLength piece rest
    match body, rest.drop body with
    | _ + 1, '/' :: flags =>
      body + 2 + (flags.takeWhile fun c => decide ('a' ≤ c) && decide (c ≤ 'z')).length
    | _, _ => 0
  | _ => 0

/-- Digits with single underscores between them. -/
def digitsLength (isDigit : Char → Bool) (cs : List Char) : Nat :=
  match cs with
  | c :: rest =>
    if isDigit c then
      1 + runLength (fun cs => match cs with
        | '_' :: d :: _ => if isDigit d then 2 else 0
        | d :: _ => if isDigit d then 1 else 0
        | [] => 0) rest
    else 0
  | [] => 0

/-- The exponent of a number, if it has one. -/
def exponentLength (cs : List Char) : Nat :=
  match cs with
  | c :: rest =>
    if c == 'e' || c == 'E' then
      let sign := match rest with
        | '+' :: _ => 1
        | '-' :: _ => 1
        | _ => 0
      match digitsLength Char.isDigit (rest.drop sign) with
      | 0 => 0
      | k => k + sign + 1
    else 0
  | [] => 0

/-- A number in decimal digits, with a fraction, an exponent or the mark of a big integer. -/
def decimalLength (cs : List Char) : Nat :=
  let whole := digitsLength Char.isDigit cs
  let isPlain := whole ≤ 1 || cs.head? != some '0' ||
    ((cs.drop 1).head?.any fun c => c.isDigit && c != '0')
  match whole, cs.drop whole with
  | 0, '.' :: rest =>
    match digitsLength Char.isDigit rest with
    | 0 => 0
    | k => 1 + k + exponentLength (rest.drop k)
  | 0, _ => 0
  | _, 'n' :: _ => whole + 1
  | _, '.' :: rest =>
    if isPlain then
      let k := digitsLength Char.isDigit rest
      whole + 1 + k + exponentLength (rest.drop k)
    else whole
  | _, rest => if isPlain then whole + exponentLength rest else whole

/-- A number in any base. -/
def numberLength (cs : List Char) : Nat :=
  let based (isDigit : Char → Bool) (rest : List Char) : Nat :=
    match digitsLength isDigit rest with
    | 0 => 1
    | k => if (rest.drop k).head? == some 'n' then k + 3 else k + 2
  match cs with
  | '0' :: c :: rest =>
    if c == 'x' || c == 'X' then based isHexDigit rest
    else if c == 'o' || c == 'O' then based isOctalDigit rest
    else if c == 'b' || c == 'B' then based (fun c => c == '0' || c == '1') rest
    else decimalLength cs
  | _ => decimalLength cs

/-- Text of a template up to an escape, a substitution or the end. -/
def fragmentLength (cs : List Char) : Nat :=
  runLength (fun cs => match cs with
    | '$' :: '\x7b' :: _ => 0
    | c :: _ => if c == '\x60' || c == '\\' then 0 else 1
    | [] => 0) cs

/-! ### Comments -/

/-- What follows a comment between slashes and stars, and whether the comment spans lines. -/
def afterBlockComment (hasLineEnd : Bool) : List Char → Option (Bool × List Char)
  | [] => none
  | '*' :: '/' :: rest => some (hasLineEnd, rest)
  | c :: rest => afterBlockComment (hasLineEnd || isLineEnd c) rest

/-- A comment; the arrows that close and open comments in web pages start one too, where `html`
allows it. -/
def commentLength (html : Bool) (cs : List Char) : Nat :=
  let toLineEnd (rest : List Char) : Nat := (rest.takeWhile fun c => !isLineEnd c).length
  match cs with
  | '/' :: '/' :: rest => 2 + (rest.takeWhile fun c => !isLineEnd c && c != '\r').length
  | '/' :: '*' :: rest =>
    match afterBlockComment false rest with
    | some (_, after) => cs.length - after.length
    | none => 0
  | '<' :: '!' :: '-' :: '-' :: rest => if html then 4 + toLineEnd rest else 0
  | '-' :: '-' :: '>' :: rest => if html then 3 + toLineEnd rest else 0
  | _ => 0

/-- White space and comments. -/
def triviaLength (html : Bool) (cs : List Char) : Nat :=
  runLength (fun cs => match cs with
    | c :: _ => if isSpace c then 1 else commentLength html cs
    | [] => 0) cs

/-! ### Punctuators -/

/-- Operators and delimiters, longer ones first. -/
def punctuators : List String :=
  [">>>=", "...", "===", "!==", "**=", "<<=", ">>=", ">>>", "&&=", "||=", "??=", "=>", "==", "!=",
    "<=", ">=", "&&", "||", "??", "?.", "++", "--", "+=", "-=", "*=", "/=", "%=", "&=", "|=", "^=",
    "<<", ">>", "**", "\x7b", "\x7d", "(", ")", "[", "]", ".", ";", ",", "<", ">", "+", "-", "*",
    "/", "%", "&", "|", "^", "!", "~", "?", ":", "=", "@"]

/-- The longest operator or delimiter in front of a text.  A question mark before a number with a
dot in front is one of its own. -/
def punctuatorOf? (cs : List Char) : Option String :=
  match cs with
  | '?' :: '.' :: c :: _ =>
    if c.isDigit then some "?" else some "?."
  | _ => punctuators.find? fun p => p.toList.isPrefixOf cs

end Interline.JavaScript
