import Interline.Toml.Value

/-! # The words of TOML

Readers for what a line of TOML consists of: blanks and comments, keys, strings and numbers.  A
reader takes the characters that belong to it from the front of the input, or fails. -/

namespace Interline.Toml

/-- Takes something from the front of the input. -/
abbrev Reader := StateT (List Char) Option

namespace Reader

def peek? : Reader (Option Char) := return (← get).head?

/-- Drops `n` characters. -/
def skip (n : Nat) : Reader Unit := modify (List.drop n)

/-- Takes the longest run of characters of a class. -/
def takeWhile (p : Char → Bool) : Reader (List Char) := do
  let cs ← get
  set (cs.dropWhile p)
  return cs.takeWhile p

/-- Takes a given text if it comes next, and tells whether it did. -/
def accept (text : String) : Reader Bool := do
  let cs ← get
  let t := text.toList
  if t.isPrefixOf cs then
    set (cs.drop t.length)
    return true
  else return false

def expect (text : String) : Reader Unit := do
  if !(← accept text) then failure

end Reader

open Reader

def isBlank (c : Char) : Bool := c == ' ' || c == '\t'

/-- Characters that a comment or a string on one line may hold. -/
def isPrintable (c : Char) : Bool := c == '\t' || (decide (0x20 ≤ c.toNat) && c.toNat != 0x7F)

def blanks : Reader Unit := do
  let _ ← takeWhile isBlank

/-- Takes a comment, if there is one, up to the end of its line. -/
def comment : Reader Unit := do
  if ← accept "#" then
    let _ ← takeWhile isPrintable

/-- Takes a line end, and tells whether there was one. -/
def lineEnd : Reader Bool := do
  if ← accept "\n" then return true else accept "\r\n"

/-- Takes blanks, comments and line ends. -/
def blankLines : Reader Unit := do
  go ((← get).length + 1)
where
  go : Nat → Reader Unit
    | 0 => return
    | n + 1 => do
      blanks
      comment
      if ← lineEnd then go n

/-! ### Strings -/

/-- The value of a hexadecimal digit. -/
def hexDigit? (c : Char) : Option Nat :=
  if '0' ≤ c ∧ c ≤ '9' then some (c.toNat - 48)
  else if 'a' ≤ c ∧ c ≤ 'f' then some (c.toNat - 87)
  else if 'A' ≤ c ∧ c ≤ 'F' then some (c.toNat - 55)
  else none

/-- Takes the code point of an escape with `n` digits. -/
def codePoint (n : Nat) : Reader Char := do
  let digits := (← get).take n
  if digits.length < n then failure
  let values ← (digits.mapM hexDigit? : Option (List Nat))
  skip n
  let code := values.foldl (fun acc d => acc * 16 + d) 0
  if code.isValidChar then return Char.ofNat code else failure

/-- Takes what follows a backslash. -/
def escape : Reader Char := do
  let c ← (← get).head?
  skip 1
  match c with
  | 'b' => return '\x08'
  | 't' => return '\t'
  | 'n' => return '\n'
  | 'f' => return '\x0c'
  | 'r' => return '\r'
  | '\x22' => return '\x22'
  | '\\' => return '\\'
  | 'u' => codePoint 4
  | 'U' => codePoint 8
  | _ => failure

/-- Takes the rest of a string in double quotes on one line. -/
def basicRest (n : Nat) : Reader (List Char) := do
  match n with
  | 0 => failure
  | n + 1 =>
    let c ← (← get).head?
    skip 1
    if c == '\x22' then return []
    else if c == '\\' then return (← escape) :: (← basicRest n)
    else if isPrintable c then return c :: (← basicRest n)
    else failure

/-- Takes the rest of a string in single quotes on one line. -/
def literalRest : Reader (List Char) := do
  let cs ← takeWhile fun c => isPrintable c && c != '\x27'
  if (← get).head? == some '\x27' then
    skip 1
    return cs
  else failure

/-- Takes the quotes at a place inside a string over several lines: with fewer than three they are
text, with three to five the last three end the string. -/
def closingQuotes (quote : Char) : Reader (List Char × Bool) := do
  let n := (((← get).take 5).takeWhile (· == quote)).length
  skip n
  if n < 3 then return (List.replicate n quote, false)
  else return (List.replicate (n - 3) quote, true)

/-- Takes the rest of a string over several lines.  A backslash escapes where `escapes` is set; at
the end of a line it takes the line end and all white space behind it. -/
def multilineRest (quote : Char) (escapes : Bool) (n : Nat) : Reader (List Char) := do
  match n with
  | 0 => failure
  | n + 1 =>
    if ← lineEnd then return '\n' :: (← multilineRest quote escapes n)
    let c ← (← get).head?
    if c == quote then
      let (text, closed) ← closingQuotes quote
      if closed then return text else return text ++ (← multilineRest quote escapes n)
    else if escapes && c == '\\' then
      skip 1
      let afterBackslash ← get
      blanks
      if ← lineEnd then
        modify (List.dropWhile fun c => isBlank c || c == '\n' || c == '\r')
        multilineRest quote escapes n
      else
        set afterBackslash
        return (← escape) :: (← multilineRest quote escapes n)
    else if isPrintable c then
      skip 1
      return c :: (← multilineRest quote escapes n)
    else failure

/-- Takes a string on one line, if one comes next. -/
def lineString? : Reader (Option String) := do
  let n := (← get).length
  match ← peek? with
  | some '\x22' => skip 1; return some (String.ofList (← basicRest n))
  | some '\x27' => skip 1; return some (String.ofList (← literalRest))
  | _ => return none

/-- Takes a string of any of the four kinds, if one comes next. -/
def string? : Reader (Option String) := do
  let n := (← get).length
  if ← accept "\"\"\"" then
    let _ ← lineEnd
    return some (String.ofList (← multilineRest '\x22' true n))
  else if ← accept "\x27\x27\x27" then
    let _ ← lineEnd
    return some (String.ofList (← multilineRest '\x27' false n))
  else lineString?

/-! ### Keys -/

def isBare (c : Char) : Bool := c.isAlphanum || c == '_' || c == '-'

/-- Takes one part of a key. -/
def keyPart : Reader String := do
  match ← lineString? with
  | some s => return s
  | none =>
    let cs ← takeWhile isBare
    if cs.isEmpty then failure else return String.ofList cs

/-- Takes a key with its dots, as the parts in front and the last one. -/
def dottedKey : Reader (List String × String) := do
  go ((← get).length + 1)
where
  go : Nat → Reader (List String × String)
    | 0 => failure
    | n + 1 => do
      blanks
      let part ← keyPart
      blanks
      if ← accept "." then
        let (front, last) ← go n
        return (part :: front, last)
      else return ([], part)

/-! ### Numbers -/

/-- The digits of a run in which single underscores stand between digits. -/
def groupedDigits? (isDigit : Char → Bool) : List Char → Option (List Char)
  | [] => none
  | [c] => if isDigit c then some [c] else none
  | c :: '_' :: rest =>
    if isDigit c then (groupedDigits? isDigit rest).map (c :: ·) else none
  | c :: rest =>
    if isDigit c then (groupedDigits? isDigit rest).map (c :: ·) else none

/-- The number that digits of a base stand for. -/
def ofDigits (base : Nat) (digits : List Char) : Nat :=
  digits.foldl (fun acc c => acc * base + (hexDigit? c).getD 0) 0

/-- Whether an integer has a place among those of 64 bits. -/
def inRange (n : Int) : Bool := decide (-9223372036854775808 ≤ n) && decide (n ≤ 9223372036854775807)

/-- The sign in front of a number, and the rest. -/
def signed : List Char → Bool × List Char
  | '-' :: rest => (true, rest)
  | '+' :: rest => (false, rest)
  | rest => (false, rest)

/-- Decimal digits without a zero in front of others. -/
def plainDigits? (cs : List Char) : Option (List Char) := do
  let digits ← groupedDigits? Char.isDigit cs
  match digits with
  | '0' :: _ :: _ => none
  | _ => some digits

def integerOf? (cs : List Char) : Option Int := do
  let n ← match cs with
    | '0' :: 'x' :: rest =>
      ((groupedDigits? (fun c => (hexDigit? c).isSome) rest).map (ofDigits 16)).map Int.ofNat
    | '0' :: 'o' :: rest =>
      ((groupedDigits? (fun c => decide ('0' ≤ c ∧ c ≤ '7')) rest).map (ofDigits 8)).map Int.ofNat
    | '0' :: 'b' :: rest =>
      ((groupedDigits? (fun c => c == '0' || c == '1') rest).map (ofDigits 2)).map Int.ofNat
    | _ =>
      let (negative, digits) := signed cs
      let n := (← plainDigits? digits |>.map (ofDigits 10))
      some (if negative then -Int.ofNat n else Int.ofNat n)
  if inRange n then some n else none

/-- The value of an exponent, the letter left out. -/
def exponentOf? (cs : List Char) : Option Int := do
  let (negative, digits) := signed cs
  let n := ofDigits 10 (← groupedDigits? Char.isDigit digits)
  some (if negative then -Int.ofNat n else Int.ofNat n)

def decimalOf? (cs : List Char) : Option Decimal := do
  let (negative, rest) := signed cs
  match rest with
  | ['i', 'n', 'f'] => some (.infinite negative)
  | ['n', 'a', 'n'] => some .notANumber
  | _ =>
    let isExponentMark (c : Char) : Bool := c == 'e' || c == 'E'
    let mantissa := rest.takeWhile fun c => !isExponentMark c
    let whole := mantissa.takeWhile (· != '.')
    let fraction ← match mantissa.dropWhile (· != '.') with
      | [] => some []
      | _ :: digits => groupedDigits? Char.isDigit digits
    let exponent ← match rest.dropWhile fun c => !isExponentMark c with
      | [] => some 0
      | _ :: digits => exponentOf? digits
    if mantissa.length = rest.length && mantissa.length = whole.length then none
    let digits := Int.ofNat (ofDigits 10 ((← plainDigits? whole) ++ fraction))
    some (.finite (if negative then -digits else digits) (exponent - fraction.length))

/-- Characters of which numbers and the words for them consist. -/
def isNumberChar (c : Char) : Bool := c.isAlphanum || c == '_' || c == '+' || c == '-' || c == '.'

/-- The value of a run of such characters. -/
def scalar? (cs : List Char) : Option Value :=
  match String.ofList cs with
  | "true" => some (.boolean true)
  | "false" => some (.boolean false)
  | _ => ((integerOf? cs).map .integer).or ((decimalOf? cs).map .decimal)

end Interline.Toml
