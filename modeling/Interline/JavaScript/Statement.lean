import Interline.JavaScript.Expression

/-! # Statements

Every statement becomes a node of its own.  One that ends without a body ends with a semicolon, or
where a line end stands for one; what can follow its last word decides how comments are taken
there. -/

namespace Interline.JavaScript

open Reader

/-- What the declaration is that comes next, if one does. -/
def declarationAhead (cs : List Char) : Option Form :=
  let behind := restBehind cs
  let function (behind : List Char) : Option Form :=
    if isName (nextOf true behind) then some .functionDeclaration
    else if nextOf true behind == .mark "*" && isName (nextOf true (restBehind behind)) then
      some .generatorFunctionDeclaration
    else none
  match nextOf true cs with
  | .word "var" => some .variableDeclaration
  | .word "const" => some .lexicalDeclaration
  | .word "let" =>
    if endsAhead false behind then none
    else
      match nextOf true behind with
      | .word w => if w == "in" || w == "instanceof" then none else some .lexicalDeclaration
      | .mark m => if m == "[" || m == "\x7b" then some .lexicalDeclaration else none
      | _ => none
  | .word "function" => function behind
  | .word "async" =>
    if !endsAhead false behind && nextOf true behind == .word "function" then
      function (restBehind behind)
    else none
  | .word "class" => if isName (nextOf true behind) then some .classDeclaration else none
  | _ => none

/-- The arrows that open and close comments in web pages. -/
def startsPageComment (cs : List Char) : Bool :=
  "<!--".toList.isPrefixOf cs || "-->".toList.isPrefixOf cs

/-- Behind a body, where a line end could stand for a semicolon but does not, the arrows of comments
in web pages are not understood. -/
def bodyEnd : Reader Unit := do
  let cs ← rest
  guard (endsAhead true cs || !startsPageComment (cs.drop (triviaLength false cs)))

section

variable (sub : Grammar)

/-- Reads an inner statement. -/
def inner : Reader Unit := do
  let _ ← sub .statement

/-- Reads statements up to a closing brace, the next clause of a switch or the end. -/
def statements : Reader Unit :=
  repeating do
    match ← look with
    | .finish => return false
    | .mark "\x7d" => return false
    | .word "case" => return false
    | .word "default" => return false
    | _ => do
      inner sub
      return true

/-- Reads a block. -/
def block : Reader Unit := do
  node .statementBlock do
    mark "\x7b"
    statements sub
    mark "\x7d"
  bodyEnd

/-! ### Declarations -/

/-- Reads a name or a pattern that is declared. -/
def declared : Reader Unit := do
  match ← look with
  | .mark "[" => guard (← array sub).pattern
  | .mark "\x7b" => guard (← object sub).pattern
  | _ => name

/-- Reads the variables of a declaration. -/
def variableList : Reader Unit := do
  keyword "var" <|> keyword "let" <|> keyword "const"
  go (← rest)
where
  go : List Char → Reader Unit
    | [] => failure
    | _ :: bound => do
      let hasValue ← phrase do
        declared sub
        if (← lookBehind (some true)) = .mark "=" then do
          operator "="
          one sub .statement
          return true
        else return false
      if (← lookBehind (some !hasValue)) = .mark "," then do
        operator ","
        go bound
      else semicolon !hasValue

/-- Reads a declaration of the given form. -/
def declaration (form : Form) : Reader Unit :=
  node form do
    match form with
    | .functionDeclaration | .generatorFunctionDeclaration => do
      functionParts sub
      bodyEnd
    | .classDeclaration => do
      classParts sub
      bodyEnd
    | _ => variableList sub

/-! ### Loops and branches -/

/-- Reads an expression with the semicolon behind it. -/
def expressionStatement : Reader Unit :=
  node .expressionStatement do
    row (expressions sub .statement)
    semicolon false

/-- Reads an empty statement. -/
def emptyStatement : Reader Unit := node .emptyStatement (mark ";")

/-- Reads the head of a loop over the elements or the keys of something. -/
def elementsHead : Reader Unit := do
  keyword "for"
  if (← look) = .word "await" then keyword "await"
  mark "("
  declaredTarget <|> assignedTarget
  keyword "of" <|> keyword "in"
  expressions sub .inner
  mark ")"
where
  header : Context := ⟨false, false⟩
  continues : Reader Unit := do
    let next ← lookBehind none
    guard (next = .word "of" || next = .word "in")
  declaredTarget : Reader Unit := do
    let isVar ← (do keyword "var"; return true) <|>
      (do keyword "let" <|> keyword "const"; return false)
    declared sub
    if isVar && (← lookBehind none) = .mark "=" then do
      operator "="
      one sub header
    continues
  assignedTarget : Reader Unit := do
    guard (← sub (.operand header)).target
    continues

/-- Reads the head of a loop with a start, a condition and a step. -/
def stepsHead : Reader Unit := do
  keyword "for"
  mark "("
  match declarationAhead (← rest) with
  | some .variableDeclaration => declaration sub .variableDeclaration
  | some .lexicalDeclaration => declaration sub .lexicalDeclaration
  | _ => part
  part
  if (← look) ≠ .mark ")" then row (expressions sub .inner)
  mark ")"
where
  part : Reader Unit := emptyStatement <|> expressionStatement sub

/-- Reads a loop with a head. -/
def forStatement : Reader Unit :=
  nodeBy do
    let form ← (do elementsHead sub; return Form.forInStatement) <|>
      (do stepsHead sub; return Form.forStatement)
    inner sub
    return form

/-- Reads the parts of a conditional statement. -/
def conditional : Reader Unit := do
  keyword "if"
  parenthesized sub
  inner sub
  if (← look) = .word "else" then
    phrase do
      keyword "else"
      inner sub

/-- Reads the parts of a loop with its condition behind the body. -/
def doLoop : Reader Unit := do
  keyword "do"
  inner sub
  keyword "while"
  parenthesized sub
  match ← lookBehind (some true) with
  | .semicolon => return
  | .mark ";" => operator ";"
  | _ => bodyEnd

/-- Reads the parts of a statement that handles errors. -/
def handling : Reader Unit := do
  keyword "try"
  block sub
  if (← look) = .word "catch" then
    phrase do
      keyword "catch"
      if (← look) = .mark "(" then do
        mark "("
        declared sub
        mark ")"
      block sub
  if (← look) = .word "finally" then
    phrase do
      keyword "finally"
      block sub

/-- Reads a clause of a switch. -/
def switchClause : Reader Unit :=
  nodeBy do
    let form ←
      if (← look) = .word "case" then do
        keyword "case"
        expressions sub .inner
        pure Form.switchCase
      else do
        keyword "default"
        pure Form.switchDefault
    mark ":"
    statements sub
    return form

/-- Reads the parts of a switch. -/
def switch : Reader Unit := do
  keyword "switch"
  parenthesized sub
  node .switchBody do
    mark "\x7b"
    repeating do
      if (← look) = .mark "\x7d" then return false
      else do
        switchClause sub
        return true
    mark "\x7d"

/-! ### Jumps -/

/-- Reads the parts of a jump to a label or out of the nearest statement. -/
def jump (word : String) : Reader Unit := do
  keyword word
  if isName (← lookBehind (some true)) then name
  semicolon true

/-- Reads the parts of a statement that returns. -/
def returning : Reader Unit := do
  keyword "return"
  match ← lookBehind (some true) with
  | .semicolon => return
  | .mark ";" => operator ";"
  | _ => do
    expressions sub .statement
    semicolon false

/-! ### Modules -/

/-- Reads the name of something that a module exports. -/
def exportName : Reader Unit := string <|> keyword "default" <|> name

/-- Reads entries in braces. -/
def entryList (entry : Reader Unit) : Reader Unit :=
  phrase do
    mark "\x7b"
    repeating do
      if (← look) = .mark "\x7d" then return false
      else do
        phrase entry
        if (← look) = .mark "," then do
          mark ","
          return true
        else return false
    mark "\x7d"

/-- Reads something exported, perhaps under another name. -/
def exported : Reader Unit := do
  exportName
  if (← look) = .word "as" then do
    keyword "as"
    exportName

/-- Reads something imported; what has no name of its own needs one. -/
def imported : Reader Unit := do
  let next ← look
  exportName
  if (← look) = .word "as" then do
    keyword "as"
    name
  else guard (isName next)

/-- Reads the module that names come from. -/
def source : Reader Unit := do
  keyword "from"
  string

/-- Reads the names that are imported. -/
def importClause : Reader Unit :=
  phrase do
    match ← look with
    | .word _ => do
      name
      if (← look) = .mark "," then do
        mark ","
        several
    | _ => several
where
  several : Reader Unit := do
    if (← look) = .mark "*" then
      phrase do
        mark "*"
        keyword "as"
        name
    else entryList imported

/-- Reads attributes of an imported module. -/
def attributes : Reader Unit := do
  if (← look) = .word "with" then
    phrase do
      keyword "with"
      value (object sub)

/-- Reads the parts of an import. -/
def «import» : Reader Unit := do
  keyword "import"
  string <|> (do importClause; source)
  attributes sub
  semicolon true

/-- Reads the parts of an export. -/
def «export» : Reader Unit := do
  decorators sub
  keyword "export"
  match ← look with
  | .mark "*" => do
    mark "*"
    if (← look) = .word "as" then do
      keyword "as"
      exportName
    source
    semicolon true
  | .mark "\x7b" => do
    entryList exported
    if (← lookBehind (some true)) = .word "from" then source
    semicolon true
  | .word "default" => do
    keyword "default"
    match declarationAhead (← rest) with
    | some form => declaration sub form
    | none => do
      row (one sub .statement)
      semicolon false
  | _ =>
    match declarationAhead (← rest) with
    | some form => declaration sub form
    | none => failure

/-! ### All statements -/

/-- Reads a statement with a label. -/
def labeled : Reader Unit :=
  node .labeledStatement do
    name
    mark ":"
    inner sub

/-- Reads a statement that starts with a word. -/
def wordStatement (word : String) : Reader Unit := do
  let cs ← rest
  let behind := nextOf true (restBehind cs)
  match declarationAhead cs with
  | some form => declaration sub form
  | none =>
    if !isReserved word && behind = .mark ":" then labeled sub
    else
      match word with
      | "if" => node .ifStatement (conditional sub)
      | "for" => forStatement sub
      | "while" =>
        node .whileStatement do
          keyword "while"
          parenthesized sub
          inner sub
      | "with" =>
        node .withStatement do
          keyword "with"
          parenthesized sub
          inner sub
      | "do" => node .doStatement (doLoop sub)
      | "switch" => node .switchStatement (switch sub)
      | "try" => node .tryStatement (handling sub)
      | "break" => node .breakStatement (jump word)
      | "continue" => node .continueStatement (jump word)
      | "return" => node .returnStatement (returning sub)
      | "throw" =>
        node .throwStatement do
          keyword "throw"
          expressions sub .statement
          semicolon false
      | "debugger" =>
        node .debuggerStatement do
          keyword "debugger"
          semicolon true
      | "export" => node .exportStatement («export» sub)
      | "import" =>
        if behind = .mark "(" || behind = .mark "." then expressionStatement sub
        else node .importStatement («import» sub)
      | _ => expressionStatement sub

/-- Reads a statement. -/
def statement : Reader Unit := do
  match ← look with
  | .mark ";" => emptyStatement
  | .mark "\x7b" => braced (block sub) (expressionStatement sub)
  | .mark "@" =>
    node .classDeclaration (classParts sub) <|>
      node .exportStatement («export» sub)
  | .word w => wordStatement sub w
  | _ => expressionStatement sub

end

end Interline.JavaScript
