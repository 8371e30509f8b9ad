import Interline.Toml.Lexeme

/-! # TOML documents

A document is a list of lines that add to one growing table.  A table that was opened by a header is
closed to a second header and to dotted keys from outside; one that dotted keys made is closed to
headers; one that a longer header implied is open until its own header comes. -/

namespace Interline.Toml

/-- What a key of the growing document holds. -/
inductive Item
  | value (v : Value)
  | table (implied dotted : Bool) (entries : List (String × Item))
  | tables (rows : List Item)

namespace Item

mutual

/-- The value of what was read. -/
def toValue : Item → Value
  | .value v => v
  | .table _ _ entries => .table (entryValues entries)
  | .tables rows => .array (rowValues rows)

def entryValues : List (String × Item) → List (String × Value)
  | [] => []
  | (key, item) :: rest => (key, item.toValue) :: entryValues rest

def rowValues : List Item → List Value
  | [] => []
  | row :: rest => row.toValue :: rowValues rest

end

/-- Puts an item in the place of the one that a key has. -/
def replace (key : String) (item : Item) (entries : List (String × Item)) : List (String × Item) :=
  entries.map fun (k, i) => if k == key then (k, item) else (k, i)

/-- Changes the table at the end of a path, making the tables on the way.  Dotted keys may not pass
through a table with a header. -/
def updateAt (dotted : Bool) (change : Item → Option Item) : List String → Item → Option Item
  | [], t => change t
  | key :: path, .table implied isDotted entries => do
    match entries.lookup key with
    | none =>
      let inner ← updateAt dotted change path (.table true dotted [])
      return .table implied isDotted (entries ++ [(key, inner)])
    | some (.value _) => none
    | some (.tables rows) =>
      let inner ← updateAt dotted change path (← rows.getLast?)
      return .table implied isDotted (replace key (.tables (rows.dropLast ++ [inner])) entries)
    | some (.table innerImplied innerDotted innerEntries) =>
      if dotted && !innerImplied then none
      let inner ← updateAt dotted change path (.table innerImplied innerDotted innerEntries)
      return .table implied isDotted (replace key inner entries)
  | _ :: _, _ => none

/-- Adds a key that a table does not have.  The last part of a dotted key goes into a table that
dotted keys made, a plain key into any other. -/
def addKey (isPlain : Bool) (key : String) (v : Value) : Item → Option Item
  | .table implied dotted entries =>
    if dotted == isPlain || (entries.lookup key).isSome then none
    else some (.table implied dotted (entries ++ [(key, .value v)]))
  | _ => none

/-- Adds a key with its dots to a table. -/
def addDotted (front : List String) (last : String) (v : Value) (t : Item) : Option Item :=
  updateAt true (addKey front.isEmpty last v) front t

/-- Opens a table by its header. -/
def openTable (key : String) : Item → Option Item
  | .table implied dotted entries =>
    match entries.lookup key with
    | none => some (.table implied dotted (entries ++ [(key, .table false false [])]))
    | some (.table true false inner) =>
      some (.table implied dotted (replace key (.table false false inner) entries))
    | some _ => none
  | _ => none

/-- Starts the next row of an array of tables. -/
def openRow (key : String) : Item → Option Item
  | .table implied dotted entries =>
    let row := .table false false []
    match entries.lookup key with
    | none => some (.table implied dotted (entries ++ [(key, .tables [row])]))
    | some (.tables rows) =>
      some (.table implied dotted (replace key (.tables (rows ++ [row])) entries))
    | some _ => none
  | _ => none

end Item

open Reader

mutual

/-- Takes a value; `n` bounds the nesting. -/
def value (n : Nat) : Reader Value := do
  match n with
  | 0 => failure
  | n + 1 =>
    match ← string? with
    | some s => return .string s
    | none =>
      if ← accept "[" then
        return .array (← items n)
      else if ← accept "\x7b" then
        blanks
        if ← accept "\x7d" then return .table []
        else return (← pairs n (.table false false [])).toValue
      else scalar? (← takeWhile isNumberChar)

/-- Takes the items of an array and its closing bracket. -/
def items (n : Nat) : Reader (List Value) := do
  match n with
  | 0 => failure
  | n + 1 =>
    blankLines
    if ← accept "]" then return []
    let v ← value n
    blankLines
    if ← accept "," then return v :: (← items n)
    else
      expect "]"
      return [v]

/-- Takes the pairs of a table on one line and its closing brace. -/
def pairs (n : Nat) (t : Item) : Reader Item := do
  match n with
  | 0 => failure
  | n + 1 =>
    let (front, last) ← dottedKey
    expect "="
    blanks
    let v ← value n
    blanks
    let t ← (Item.addDotted front last v t : Option Item)
    if ← accept "," then pairs n t
    else
      expect "\x7d"
      return t

end

/-- A document under construction, and the table that its lines now add to. -/
structure Draft where
  root : Item
  current : List String

/-- Takes one line of a document, its end left out. -/
def line (d : Draft) : Reader Draft := do
  blanks
  let n := (← get).length
  match ← peek? with
  | none | some '#' | some '\n' | some '\r' => return d
  | some '[' =>
    let isRow ← accept "[["
    if !isRow then skip 1
    let (front, last) ← dottedKey
    expect (if isRow then "]]" else "]")
    let change := if isRow then Item.openRow last else Item.openTable last
    let root ← (Item.updateAt false change front d.root : Option Item)
    return ⟨root, front ++ [last]⟩
  | some _ =>
    let (front, last) ← dottedKey
    expect "="
    blanks
    let v ← value (n + 1)
    let root ← (Item.updateAt false (Item.addDotted front last v) d.current d.root : Option Item)
    return { d with root := root }

/-- Takes all lines of a document. -/
def lines (n : Nat) (d : Draft) : Reader Draft := do
  match n with
  | 0 => failure
  | n + 1 =>
    let d ← line d
    blanks
    comment
    if (← get).isEmpty then return d
    else if ← lineEnd then lines n d
    else failure

/-- The entries of a document, if it is well formed. -/
def parse? (text : String) : Option (List (String × Value)) := do
  let cs := match text.toList with
    | '\uFEFF' :: rest => rest
    | cs => cs
  let (d, _) ← (lines (cs.length + 1) ⟨.table false false [], []⟩).run cs
  match d.root.toValue with
  | .table entries => some entries
  | _ => none

end Interline.Toml
