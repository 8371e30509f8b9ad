/-! # JSON texts

Values of the data format and their text with one entry to a line, indented by two spaces. -/

namespace Interline

inductive Json
  | null
  | number (n : Nat)
  | string (s : String)
  | array (items : List Json)
  | object (fields : List (String × Json))

namespace Json

/-- A digit of base sixteen. -/
def hexDigit (n : Nat) : Char := "0123456789abcdef".toList.getD n '0'

/-- A character inside a string: quotes, backslashes and control characters are escaped. -/
def escape (c : Char) : List Char :=
  if c = '\x22' then ['\\', '\x22']
  else if c = '\\' then ['\\', '\\']
  else if c = '\x08' then ['\\', 'b']
  else if c = '\x0c' then ['\\', 'f']
  else if c = '\n' then ['\\', 'n']
  else if c = '\r' then ['\\', 'r']
  else if c = '\t' then ['\\', 't']
  else if c.toNat < 0x20 then
    ['\\', 'u', '0', '0', hexDigit (c.toNat / 16), hexDigit (c.toNat % 16)]
  else [c]

def quote (s : String) : String :=
  String.ofList ('\x22' :: s.toList.flatMap escape ++ ['\x22'])

/-- Puts something behind the last line. -/
def suffixLast (s : String) : List String → List String
  | [] => []
  | [line] => [line ++ s]
  | line :: rest => line :: suffixLast s rest

/-- Puts something in front of the first line. -/
def prefixFirst (s : String) : List String → List String
  | [] => []
  | line :: rest => (s ++ line) :: rest

/-- The lines of entries, with commas between the entries. -/
def separate : List (List String) → List String
  | [] => []
  | [last] => last
  | entry :: rest => suffixLast "," entry ++ separate rest

/-- The lines of a list of entries between brackets. -/
def enclose (opening closing : String) (entries : List (List String)) : List String :=
  if entries.isEmpty then [opening ++ closing]
  else opening :: (separate entries).map ("  " ++ ·) ++ [closing]

mutual

/-- The lines of a value. -/
def lines : Json → List String
  | .null => ["null"]
  | .number n => [toString n]
  | .string s => [quote s]
  | .array items => enclose "[" "]" (linesOfItems items)
  | .object fields => enclose "\x7b" "\x7d" (linesOfFields fields)

def linesOfItems : List Json → List (List String)
  | [] => []
  | item :: rest => lines item :: linesOfItems rest

def linesOfFields : List (String × Json) → List (List String)
  | [] => []
  | (key, v) :: rest => prefixFirst (quote key ++ ": ") (lines v) :: linesOfFields rest

end

end Json
end Interline
