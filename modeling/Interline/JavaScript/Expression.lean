import Interline.JavaScript.Reader

/-! # Expressions

An expression is read from left to right without looking at how tightly operators bind, since that
changes neither its tokens nor its statements.  Brackets can turn out to hold a pattern only when
an assignment or an arrow follows, so whatever is read comes with its `Role`: what it could also be
taken for.

The readers below call each other through `sub`, which stands for the whole grammar. -/

namespace Interline.JavaScript

open Reader

/-- Where an expression stands. -/
structure Context where
  /-- A line end may stand for a semicolon here. -/
  atLineEnd : Bool
  /-- The word `in` is an operator here. -/
  membership : Bool

namespace Context

/-- Between brackets. -/
def inner : Context := ⟨false, true⟩

/-- In a statement of its own. -/
def statement : Context := ⟨true, true⟩

/-- How `lookBehind` looks from here: an operator could follow. -/
def ending (c : Context) : Option Bool := if c.atLineEnd then some false else none

end Context

/-- The parts of the grammar that contain each other. -/
inductive Goal
  | statement
  | body
  | expression (c : Context)
  | operand (c : Context)

/-- What an expression could be taken for. -/
structure Role where
  /-- It can be assigned to. -/
  target : Bool
  /-- It can be assigned to together with an operation. -/
  updatable : Bool
  /-- It can stand in a pattern. -/
  pattern : Bool
  /-- It can stand in a pattern together with a default value. -/
  withDefault : Bool
  /-- It has a value. -/
  value : Bool

namespace Role

/-- An expression and nothing else. -/
def plain : Role := ⟨false, false, false, false, true⟩

/-- A name or a member. -/
def place : Role := ⟨true, true, true, false, true⟩

/-- An expression in parentheses. -/
def group : Role := ⟨true, true, false, false, true⟩

/-- Whether it can be an item of a pattern. -/
def isPatternItem (r : Role) : Bool := r.pattern || r.withDefault

end Role

/-- The rest of the grammar. -/
abbrev Grammar := Goal → Reader Role

section

variable (sub : Grammar)

/-- Reads something that must have a value. -/
def value (p : Reader Role) : Reader Unit := do
  guard (← p).value

/-- Reads one expression. -/
def one (c : Context) : Reader Unit := value (sub (.expression c))

/-- Reads expressions between commas. -/
def expressions (c : Context) : Reader Unit := do
  one sub c
  repeating do
    match ← lookBehind c.ending with
    | .mark "," => do
      operator ","
      one sub c
      return true
    | _ => return false

/-- Reads expressions in parentheses. -/
def parenthesized : Reader Unit :=
  phrase do
    mark "("
    expressions sub .inner
    mark ")"

/-! ### Lists in brackets -/

/-- What a list in brackets could be taken for. -/
structure ListRole where
  /-- Every item can stand in a pattern. -/
  patterns : Bool
  /-- Every item has a value. -/
  values : Bool
  /-- There are items, none of them is missing or spread, and no comma follows the last one. -/
  isSequence : Bool
  /-- No item is missing. -/
  isFull : Bool

/-- A list to which nothing has been added. -/
def ListRole.empty : ListRole := ⟨true, true, false, true⟩

/-- Adds an item. -/
def ListRole.add (l : ListRole) (isFirst spread : Bool) (r : Role) : ListRole where
  patterns := l.patterns && (if spread then r.pattern else r.isPatternItem)
  values := l.values && r.value
  isSequence := (isFirst || l.isSequence) && !spread
  isFull := l.isFull

/-- Reads an item of a list, and says whether it is spread. -/
def item : Reader (Bool × Role) := do
  match ← look with
  | .mark "..." => do
    mark "..."
    return (true, ← sub (.expression .inner))
  | _ => return (false, ← sub (.expression .inner))

/-- Reads a list in brackets. -/
def list (opening closing : String) : Reader ListRole :=
  phrase do
    mark opening
    let l ← go (← rest) true .empty
    mark closing
    return l
where
  go : List Char → Bool → ListRole → Reader ListRole
    | [], _, _ => failure
    | _ :: bound, isFirst, l => do
      match ← look with
      | .mark "," => do
        mark ","
        go bound false { l with isSequence := false, isFull := false }
      | next =>
        if next = .mark closing then return { l with isSequence := false }
        else do
          let (spread, r) ← item sub
          let l := l.add isFirst spread r
          match ← lookBehind none with
          | .mark "," => do
            operator ","
            go bound false l
          | _ => return l

/-- Reads the arguments of a call. -/
def arguments : Reader Unit := do
  guard (← list sub "(" ")").values

/-- Reads the parameters of a function. -/
def parameters : Reader Unit := do
  let l ← list sub "(" ")"
  guard (l.patterns && l.isFull)

/-- Reads an array, or a pattern that looks like one. -/
def array : Reader Role := do
  let l ← list sub "[" "]"
  return ⟨l.patterns, false, l.patterns, false, l.values⟩

/-! ### Functions and classes -/

/-- Whether a name comes next. -/
def isName : Next → Bool
  | .word w => !isReserved w
  | _ => false

/-- Reads the parts of a function. -/
def functionParts : Reader Unit := do
  if wordOf (← rest) = "async" then keyword "async"
  keyword "function"
  if (← look) = .mark "*" then mark "*"
  if isName (← look) then name
  parameters sub
  let _ ← sub .body

/-- Reads parameters and body of a method. -/
def method : Reader Unit := do
  parameters sub
  let _ ← sub .body

/-- Reads the name of a property, and says whether it could be that of a variable too. -/
def propertyName : Reader Bool := do
  match ← look with
  | .word w => do
    anyName
    return !isReserved w
  | .mark "[" => do
    phrase do
      mark "["
      one sub .inner
      mark "]"
    return false
  | .other '#' => do
    privateName
    return false
  | _ => do
    string <|> literal .number numberLength
    return false

/-- Whether a word in front of this text modifies the property whose name follows. -/
def modifies (inClass : Bool) (behind : List Char) : Bool :=
  let next := nextOf true behind
  let hasName := match next with
    | .word _ => true
    | .other _ => true
    | .mark m => m == "[" || m == "*"
    | _ => false
  hasName && !(inClass && endsAhead true behind)

/-- Reads a word that modifies a property, if it comes next. -/
def modifier (inClass : Bool) (word : String) : Reader Bool := do
  let cs ← rest
  if nextOf true cs = .word word && modifies inClass (restBehind cs) then do
    keyword word
    return true
  else return false

/-- The words `static` and `get` with a line end behind them, which are one mark. -/
def staticGetLength (cs : List Char) : Nat :=
  let code := cs.drop (triviaLength true cs)
  let blank := (code.drop 6).takeWhile isSpace
  let ending := (code.drop (6 + blank.length + 3)).takeWhile isSpace
  let lines := (ending.reverse.dropWhile (· != '\n')).length
  if "static".toList.isPrefixOf code && "get".toList.isPrefixOf (code.drop (6 + blank.length))
      && !blank.isEmpty && 0 < lines then
    6 + blank.length + 3 + lines
  else 0

/-- Reads the words in front of a method's name, and says whether one of them makes sure that it is
a method. -/
def modifiers (inClass : Bool) : Reader Bool := do
  let cs ← rest
  let isGetter ← match staticGetLength cs with
    | 0 => do
      let _ ← modifier inClass "static"
      pure false
    | k => do
      gap true
      leaf (.mark "static get") k
      pure true
  let isAsync ← modifier inClass "async"
  let isAccessor ← modifier inClass "get" <||> modifier inClass "set"
  let isGenerator := !isAccessor && (← look) = .mark "*"
  if isGenerator then mark "*"
  return isGetter || isAsync || isAccessor || isGenerator

/-- Reads decorations, in front of a class or a member of one. -/
def decorators : Reader Unit :=
  repeating do
    match ← look with
    | .mark "@" => do
      phrase do
        mark "@"
        name
        repeating do
          match ← lookBehind none with
          | .mark "." => do
            operator "."
            anyName
            return true
          | _ => return false
        if (← lookBehind none) = .mark "(" then arguments sub
      return true
    | _ => return false

/-- Reads a field or a method of a class. -/
def member : Reader Unit := do
  decorators sub
  let cs ← rest
  if nextOf true cs = .word "static" && nextOf true (restBehind cs) = .mark "\x7b" then do
    keyword "static"
    let _ ← sub .body
  else do
    let isMethod ← modifiers true
    let _ ← propertyName sub
    match ← lookBehind (some true) with
    | .mark "(" => method sub
    | .mark "=" => do
      guard !isMethod
      operator "="
      one sub .statement
      semicolon false
    | _ => do
      guard !isMethod
      semicolon true

/-- Reads the parts of a class. -/
def classParts : Reader Unit := do
  decorators sub
  keyword "class"
  if isName (← look) then name
  if (← look) = .word "extends" then
    phrase do
      keyword "extends"
      one sub .inner
  node .classBody do
    mark "\x7b"
    repeating do
      match ← look with
      | .mark "\x7d" => return false
      | .mark ";" => do
        mark ";"
        return true
      | _ => do
        phrase (member sub)
        return true
    mark "\x7d"

/-! ### Operands -/

/-- Reads a property of an object, or a part of a pattern that looks like one. -/
def property : Reader Role := do
  match ← look with
  | .mark "..." => do
    mark "..."
    let r ← sub (.expression .inner)
    return { Role.plain with pattern := r.pattern, value := r.value }
  | _ => do
    let isMethod ← modifiers false
    let (isWord, key) ← collect (propertyName sub)
    key.forM push
    match ← lookBehind none with
    | .mark "(" => do
      method sub
      return .plain
    | .mark ":" => do
      guard !isMethod
      operator ":"
      let r ← sub (.expression .inner)
      return { Role.plain with pattern := r.isPatternItem, value := r.value }
    | .mark "=" => do
      guard (isWord && !isMethod)
      operator "="
      one sub .inner
      return { Role.plain with pattern := true, value := false }
    | _ => do
      guard (isWord && !isMethod)
      return { Role.plain with pattern := true }

/-- Reads an object, or a pattern that looks like one. -/
def object : Reader Role :=
  phrase do
    mark "\x7b"
    let (pattern, value) ← go (← rest) true true
    mark "\x7d"
    return ⟨pattern, false, pattern, false, value⟩
where
  go : List Char → Bool → Bool → Reader (Bool × Bool)
    | [], _, _ => failure
    | _ :: bound, pattern, value => do
      match ← look with
      | .mark "\x7d" => return (pattern, value)
      | .mark "," => do
        mark ","
        go bound pattern value
      | _ => do
        let r ← phrase (property sub)
        let pattern := pattern && r.pattern
        let value := value && r.value
        match ← lookBehind none with
        | .mark "," => do
          operator ","
          go bound pattern value
        | _ => return (pattern, value)

/-- Reads a template. -/
def template : Reader Unit :=
  phrase do
    leaf (.mark "\x60") 1
    repeating do
      let cs ← rest
      match cs with
      | '\x60' :: _ => return false
      | '$' :: '\x7b' :: _ => do
        phrase do
          leaf (.mark "$\x7b") 2
          expressions sub .inner
          mark "\x7d"
        return true
      | '\\' :: _ => do
        leaf (.named .escapeSequence) (escapeLength cs)
        return true
      | _ => do
        leaf (.named .stringFragment) (fragmentLength cs)
        return true
    leaf (.mark "\x60") 1

/-- Reads a template in front, white space aside. -/
def templateBehind : Reader Unit := do
  gap true
  guard ((← rest).head? = some '\x60')
  template sub

/-- Reads in two ways something that starts with a brace: as a block and as an expression that
starts with an object.  The expression wins if the block is none or would start with a label. -/
def braced (block expression : Reader Unit) : Reader Unit := do
  let s ← get
  match block.run s with
  | none => expression
  | some (_, t) =>
    let first := t.read.head?.bind fun b => b.children.find? fun p =>
      p.isNamed && !p.label.isComment
    if first.any fun p => p.label = .named .labeledStatement then expression <|> set t
    else set t

/-- Reads an arrow and the body behind it. -/
def arrow (c : Context) : Reader Role := do
  operator "=>"
  if (← look) = .mark "\x7b" then
    braced (do let _ ← sub .body) (one sub c)
  else one sub c
  return .plain

/-- Whether an arrow comes next. -/
def arrowFollows (c : Context) : Reader Bool := do
  return (← lookBehind c.ending) = .mark "=>"

/-- Reads expressions in parentheses, or a function with an arrow. -/
def group (c : Context) : Reader Role := do
  let l ← list sub "(" ")"
  if ← arrowFollows c then do
    guard (l.patterns && l.isFull)
    arrow sub c
  else do
    guard (l.values && l.isSequence)
    return .group

/-- Reads a name, or a function with an arrow that has it as its parameter. -/
def nameOperand (c : Context) : Reader Role := do
  name
  if ← arrowFollows c then arrow sub c else return .place

/-- Reads something that starts with the word `async`, which may be a name. -/
def asyncOperand (c : Context) : Reader Role := do
  let behind := restBehind (← rest)
  if c.ending.any fun commentEnds => endsAhead commentEnds behind then nameOperand sub c
  else
    match nextOf false behind with
    | .word "function" => do
      phrase (functionParts sub)
      return .plain
    | .word _ =>
      (do
        keyword "async"
        name
        arrow sub c) <|> nameOperand sub c
    | .mark "(" => do
      gap true
      let span ← advance 5
      let (l, parts) ← collect (list sub "(" ")")
      let isArrow ← arrowFollows c
      push (.node (if isArrow then .mark "async" else .named .name) span [])
      parts.forM push
      if isArrow then do
        guard (l.patterns && l.isFull)
        arrow sub c
      else do
        guard l.values
        return .plain
    | _ => nameOperand sub c

/-- Reads an operand that starts with a word. -/
def wordOperand (c : Context) (word : String) : Reader Role := do
  if ["this", "super", "null", "true", "false"].contains word then do
    anyName
    return .plain
  else if word = "undefined" then do
    anyName
    return { Role.place with updatable := false }
  else if word = "function" then do
    phrase (functionParts sub)
    return .plain
  else if word = "class" then do
    phrase (classParts sub)
    return .plain
  else if word = "async" then asyncOperand sub c
  else if word = "import" then do
    keyword "import"
    if (← look) = .mark "." then do
      mark "."
      keyword "meta" <|> anyName
    else guard ((← look) = .mark "(")
    return .plain
  else nameOperand sub c

/-- Reads an operand without anything in front of it or behind it. -/
def primary (c : Context) : Reader Role := do
  match ← look with
  | .word w => wordOperand sub c w
  | .mark "(" => group sub c
  | .mark "[" => array sub
  | .mark "\x7b" => object sub
  | .mark "@" => do
    phrase (classParts sub)
    return .plain
  | .other '#' => do
    privateName
    guard ((← look) = .word "in")
    return .plain
  | .other '\x60' => do
    templateBehind sub
    return .plain
  | _ => do
    string <|> literal .number numberLength <|> literal .regex regexLength
    return .plain

/-- Reads members, calls and the like behind an operand.  Calls can be left for later. -/
def suffixes (c : Context) (calls : Bool) (r : Role) : Reader Role := do
  go (← rest) r
where
  /-- Reads one of them and goes on. -/
  step (r next : Role) (p : Reader Unit) : Reader Role := do
    guard r.value
    p
    return next
  index : Reader Unit :=
    phrase do
      mark "["
      expressions sub .inner
      mark "]"
  memberName : Reader Unit := anyName <|> privateName
  go : List Char → Role → Reader Role
    | [], r => return r
    | _ :: bound, r => do
      match ← lookBehind c.ending with
      | .mark "." => do
        go bound (← step r .place (do operator "."; memberName))
      | .mark "[" => do
        go bound (← step r .place index)
      | .other '\x60' => do
        go bound (← step r .plain (templateBehind sub))
      | .mark "?." =>
        if calls then do
          guard r.value
          gap false
          leaf (.named .name) 2
          match ← look with
          | .mark "(" => do
            arguments sub
            go bound .plain
          | .mark "[" => do
            index
            go bound .place
          | _ => do
            memberName
            go bound .place
        else return r
      | .mark "(" =>
        if calls then do
          go bound (← step r .plain (arguments sub))
        else return r
      | .mark m =>
        if calls && (m == "++" || m == "--") then do
          go bound (← step r .plain (operator m))
        else return r
      | _ => return r

/-- Reads an object under construction, its arguments included. -/
def construction (c : Context) : Reader Role := do
  repeating do
    match ← look with
    | .word "new" => do
      keyword "new"
      return true
    | _ => return false
  if (← look) = .mark "." then do
    mark "."
    keyword "target"
    return .plain
  else do
    let r ← suffixes sub c false (← primary sub c)
    guard r.value
    return .plain

/-- Whether an expression goes on with this behind the word `yield`. -/
def isYielded : Next → Bool
  | .word w => !(["in", "instanceof", "of"].contains w)
  | .mark m =>
    ["(", "[", "\x7b", "+", "-", "!", "~", "++", "--", "/", "/=", "."].contains m
  | .other _ => true
  | _ => false

/-- Reads a value that a generator hands out, if there is one. -/
def yielded (c : Context) : Reader Role := do
  keyword "yield"
  let next ← lookBehind c.ending
  if next = .mark "*" then do
    operator "*"
    one sub c
  else if isYielded next then one sub c
  return .plain

/-- Reads an operand with everything in front of it and behind it. -/
def operand (c : Context) : Reader Role := do
  match ← look with
  | .word "yield" => yielded sub c
  | .word "new" => do
    suffixes sub c true (← construction sub c)
  | .word w =>
    if ["typeof", "void", "delete", "await"].contains w then unary (keyword w)
    else whole
  | .mark m =>
    if ["!", "~", "+", "-", "++", "--"].contains m then unary (mark m) else whole
  | _ => whole
where
  whole : Reader Role := do
    suffixes sub c true (← primary sub c)
  unary (p : Reader Unit) : Reader Role := do
    p
    let r ← sub (.operand c)
    guard (r.value || r.target)
    return { r with pattern := false, withDefault := false }

/-! ### Expressions -/

/-- Operators between two operands. -/
def binaryOperators : List String :=
  ["&&", "||", "??", "==", "!=", "===", "!==", "<", "<=", ">", ">=", "+", "-", "*", "/", "%", "**",
    "&", "|", "^", "<<", ">>", ">>>"]

/-- Operators that assign the result of an operation. -/
def updateOperators : List String :=
  ["+=", "-=", "*=", "/=", "%=", "**=", "&=", "|=", "^=", "<<=", ">>=", ">>>=", "&&=", "||=", "??="]

/-- Reads an expression without commas. -/
def expression (c : Context) : Reader Role := do
  let r ← sub (.operand c)
  go (← rest) true r
where
  /-- Reads an assigned value. -/
  assign (mark : String) (isOnly : Bool) (r : Role) : Reader Role := do
    operator mark
    one sub c
    return { Role.plain with withDefault := isOnly && r.pattern && mark == "=" }
  go : List Char → Bool → Role → Reader Role
    | [], _, r => return r
    | _ :: bound, isOnly, r => do
      let done := if isOnly then r else { Role.plain with value := r.value }
      match ← lookBehind c.ending with
      | .mark "=" =>
        if r.target then assign "=" isOnly r else return done
      | .mark "?" => do
        guard r.value
        operator "?"
        one sub .inner
        mark ":"
        one sub c
        return .plain
      | .mark m =>
        if binaryOperators.contains m then do
          guard r.value
          operator m
          go bound false (← sub (.operand c))
        else if updateOperators.contains m then do
          guard r.updatable
          assign m isOnly r
        else return done
      | .word w =>
        if w = "instanceof" || (w = "in" && c.membership) then do
          guard r.value
          keyword w
          go bound false (← sub (.operand c))
        else return done
      | _ => return done

end

end Interline.JavaScript
