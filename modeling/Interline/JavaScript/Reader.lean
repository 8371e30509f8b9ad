import Interline.JavaScript.AutomaticSemicolon
import Interline.JavaScript.ParseTree

/-! # Reading a program

A reader takes characters from the front of a text and leaves parse trees behind; it fails where
the text does not go on as it must, and then nothing has been read.  `look` says what comes next
without reading it, and takes into account that a line end may stand for a semicolon.  Every loop
takes the text that it starts from as the bound of its steps. -/

namespace Interline.JavaScript

/-- What is left of a text, where it starts, and the trees read so far, the last one first. -/
structure Progress where
  rest : List Char
  offset : Nat
  pos : Position
  read : List ParseTree

/-- A step of reading. -/
abbrev Reader := StateT Progress Option

/-- The place behind a character. -/
def positionAfter (p : Position) (c : Char) : Position :=
  if c = '\n' then ⟨p.line + 1, 0⟩ else ⟨p.line, p.column + c.utf8Size⟩

namespace Reader

/-! ### Leaves -/

/-- The text that is left. -/
def rest : Reader (List Char) := do
  return (← get).rest

/-- Moves over characters and gives back the span they cover. -/
def advance (n : Nat) : Reader Span := do
  let s ← get
  let taken := s.rest.take n
  let t := { s with
    rest := s.rest.drop n
    offset := s.offset + Text.byteLength taken
    pos := taken.foldl positionAfter s.pos }
  set t
  return ⟨s.offset, t.offset, s.pos, t.pos⟩

/-- Leaves a tree behind. -/
def push (t : ParseTree) : Reader Unit :=
  modify fun s => { s with read := t :: s.read }

/-- Reads characters as a leaf; there must be some. -/
def leaf (label : Label) (n : Nat) : Reader Unit := do
  guard (0 < n)
  push (.node label (← advance n) [])

/-- The form of a comment, by its first character. -/
def commentForm (cs : List Char) : Form :=
  match cs with
  | '/' :: _ => .comment
  | _ => .htmlComment

/-- Reads white space and comments. -/
def gap (html : Bool) : Reader Unit := do
  go (← rest)
where
  go : List Char → Reader Unit
    | [] => return
    | _ :: bound => do
      let cs ← rest
      match (cs.takeWhile isSpace).length with
      | 0 =>
        match commentLength html cs with
        | 0 => return
        | k => do
          leaf (.named (commentForm cs)) k
          go bound
      | k => do
        let _ ← advance k
        go bound

/-! ### What comes next -/

/-- What the text goes on with. -/
inductive Next
  | finish
  | semicolon
  | word (text : String)
  | mark (text : String)
  | other (first : Char)
deriving DecidableEq

/-- The next lexeme behind white space and comments. -/
def nextOf (html : Bool) (cs : List Char) : Next :=
  match cs.drop (triviaLength html cs) with
  | [] => .finish
  | c :: rest =>
    match wordLength (c :: rest) with
    | 0 =>
      match punctuatorOf? (c :: rest) with
      | some p => .mark p
      | none => .other c
    | k => .word (String.ofList ((c :: rest).take k))

/-- The text behind the next lexeme, if that is a word or a mark. -/
def restBehind (cs : List Char) : List Char :=
  let code := cs.drop (triviaLength true cs)
  match wordLength code, punctuatorOf? code with
  | 0, some p => code.drop p.length
  | k, _ => code.drop k

/-- What comes next where a statement or an operand starts. -/
def look : Reader Next := do
  return nextOf true (← rest)

/-- What comes next behind something complete.  Where `ending` is given, a semicolon could stand
here; it says whether a comment that reaches the next line ends the statement. -/
def lookBehind (ending : Option Bool) : Reader Next := do
  let cs ← rest
  return if ending.any fun commentEnds => endsAhead commentEnds cs then .semicolon
    else nextOf false cs

/-! ### Marks and words -/

/-- Reads an operator or delimiter that follows something complete. -/
def operator (text : String) : Reader Unit := do
  gap false
  guard (punctuatorOf? (← rest) = some text)
  leaf (.mark text) text.length

/-- Reads an operator or delimiter. -/
def mark (text : String) : Reader Unit := do
  gap true
  operator text

/-- Reads a certain word as a part of the grammar. -/
def keyword (text : String) : Reader Unit := do
  gap true
  guard (wordOf (← rest) = text)
  leaf (.mark text) text.length

/-- Reads any word as a name. -/
def anyName : Reader Unit := do
  gap true
  leaf (.named .name) (wordLength (← rest))

/-- Reads a word that is not reserved as a name. -/
def name : Reader Unit := do
  gap true
  guard (!isReserved (wordOf (← rest)))
  anyName

/-- Reads a private name. -/
def privateName : Reader Unit := do
  gap true
  leaf (.named .name) (privateNameLength (← rest))

/-- Reads a literal of the given form. -/
def literal (form : Form) (length : List Char → Nat) : Reader Unit := do
  gap true
  leaf (.named form) (length (← rest))

def string : Reader Unit := literal .string stringLength

/-! ### Trees -/

/-- The span from the first tree to the last; without trees it is the given place. -/
def cover (here : Span) (parts : List ParseTree) : Span :=
  match parts.head?, parts.getLast? with
  | some first, some last =>
    ⟨first.span.start, last.span.stop, first.span.startPos, last.span.stopPos⟩
  | _, _ => here

/-- Reads trees without leaving them behind. -/
def collect {α : Type} (p : Reader α) : Reader (α × List ParseTree) := do
  let s ← get
  set { s with read := [] }
  let a ← p
  let t ← get
  set { t with read := s.read }
  return (a, t.read.reverse)

/-- Reads the parts of a node whose form shows on the way. -/
def nodeBy (p : Reader Form) : Reader Unit := do
  gap true
  let here ← advance 0
  let (form, parts) ← collect p
  push (.node (.named form) (cover here parts) parts)

/-- Reads the parts of a node of the given form. -/
def node (form : Form) (p : Reader Unit) : Reader Unit :=
  nodeBy do
    p
    return form

/-- Reads the parts of a phrase, and gives back what was found out about it. -/
def phrase {α : Type} (p : Reader α) : Reader α := do
  gap true
  let here ← advance 0
  let (a, parts) ← collect p
  push (.node (.named .phrase) (cover here parts) parts)
  return a

/-- Reads parts that together are a phrase; a single part stands for itself. -/
def row (p : Reader Unit) : Reader Unit := do
  gap true
  let here ← advance 0
  match ← collect p with
  | (_, [part]) => push part
  | (_, parts) => push (.node (.named .phrase) (cover here parts) parts)

/-! ### Repetition -/

/-- Reads on as long as the step says that there is more. -/
def repeating (step : Reader Bool) : Reader Unit := do
  go (← rest)
where
  go : List Char → Reader Unit
    | [] => do
      let _ ← step
      return
    | _ :: bound => do
      if ← step then go bound else return

/-- Reads the semicolon of a statement, or a line end that stands for it. -/
def semicolon (commentEnds : Bool) : Reader Unit := do
  match ← lookBehind (some commentEnds) with
  | .semicolon => return
  | _ => operator ";"

end Reader
end Interline.JavaScript
