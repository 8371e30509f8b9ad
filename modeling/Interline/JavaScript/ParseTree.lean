import Interline.Text
import Interline.SyntaxTree
import Interline.TokenStore

/-! # Parse trees

The whole shape of a program, down to every brace: what a grammar finds in a text.  Two views of a
parse tree make a source model, and neither needs the grammar that built it.

* `ParseTree.tokens` lists its leaves, with literals and comments kept whole;
* `ParseTree.statements` keeps the named nodes that matter for layout as a `SyntaxTree`. -/

namespace Interline.JavaScript

/-- What the grammar calls a named node.  Leaves that nothing tells apart are names, and what joins
other nodes to a part of an expression or of a statement is a phrase. -/
inductive Form
  | program
  | comment
  | htmlComment
  | hashBangLine
  | string
  | regex
  | number
  | stringFragment
  | escapeSequence
  | name
  | phrase
  | statementBlock
  | emptyStatement
  | expressionStatement
  | ifStatement
  | labeledStatement
  | breakStatement
  | continueStatement
  | withStatement
  | switchStatement
  | returnStatement
  | throwStatement
  | tryStatement
  | whileStatement
  | doStatement
  | forStatement
  | forInStatement
  | debuggerStatement
  | lexicalDeclaration
  | variableDeclaration
  | functionDeclaration
  | generatorFunctionDeclaration
  | classDeclaration
  | importStatement
  | exportStatement
  | switchBody
  | switchCase
  | switchDefault
  | classBody
deriving DecidableEq

/-- Named nodes have a form; the others are the words and marks of the grammar. -/
inductive Label
  | named (form : Form)
  | mark (text : String)
deriving DecidableEq

/-- A node covers a span and consists of its children, in the order of the text. -/
inductive ParseTree
  | node (label : Label) (span : Span) (children : List ParseTree)

/-- Comments are tokens, but no part of the code. -/
def Form.isComment : Form → Bool
  | .comment | .htmlComment | .hashBangLine => true
  | _ => false

/-- Literals and comments stay one token, whatever they consist of. -/
def Form.isWhole : Form → Bool
  | .string | .regex => true
  | f => f.isComment

/-- The body that a closing brace ends when it stands right below a node of this form. -/
def Form.body? : Form → Option Body
  | .statementBlock => some .block
  | .switchBody => some .switch
  | .classBody => some .class
  | _ => none

namespace Label

def isComment : Label → Bool
  | .named f => f.isComment
  | .mark _ => false

def isWhole : Label → Bool
  | .named f => f.isWhole
  | .mark _ => false

def body? : Label → Option Body
  | .named f => f.body?
  | .mark _ => none

/-- The kind of the token that a leaf becomes; comments are told apart by their text. -/
def tokenKind (text : List Char) : Label → TokenKind
  | .named .comment | .named .htmlComment =>
    if ['/', '*'].isPrefixOf text then .blockComment else .lineComment
  | .named .hashBangLine => .lineComment
  | .named .string => .string
  | .named .regex => .regExp
  | .named .number => .numeric
  | .named .stringFragment | .named .escapeSequence | .mark "\x60" => .template
  | .named _ => .identifier
  | .mark m => if m.toList.all Char.isAlpha then .keyword else .punctuator

end Label

namespace ParseTree

def label : ParseTree → Label
  | .node l _ _ => l

def span : ParseTree → Span
  | .node _ s _ => s

def children : ParseTree → List ParseTree
  | .node _ _ cs => cs

def isNamed (t : ParseTree) : Bool :=
  match t.label with
  | .named _ => true
  | .mark _ => false

/-! ### Tokens -/

/-- The token of a leaf, given the node right above it. -/
def leafToken (source : List Char) (above : Label) (label : Label) (span : Span) : Token :=
  let text := (Text.slice? source span.start span.stop).getD []
  { kind := label.tokenKind text
    text := String.ofList text
    span := span
    closes := if label = .mark "\x7d" then above.body? else none }

mutual

/-- The leaves of a tree that stands below a node with the given label.  Nodes without width give
nothing. -/
def tokensBelow (source : List Char) (above : Label) : ParseTree → List Token
  | .node label span children =>
    if span.start = span.stop then []
    else if children.isEmpty || label.isWhole then [leafToken source above label span]
    else tokensOfAll source label children

/-- The leaves of the trees below a node with the given label. -/
def tokensOfAll (source : List Char) (above : Label) : List ParseTree → List Token
  | [] => []
  | t :: ts => tokensBelow source above t ++ tokensOfAll source above ts

end

/-- The tokens of a program with the given text. -/
def tokens (source : List Char) (program : ParseTree) : List Token :=
  tokensBelow source (.named .program) program

/-! ### Statements -/

/-- Whether an expression statement is a bare string, comments aside. -/
def isStringStatement (children : List ParseTree) : Bool :=
  match children.filter fun t => t.isNamed && !t.label.isComment with
  | [only] => only.label = .named .string
  | _ => false

/-- The kind of a node, by its form and its children. -/
def nodeKind (form : Form) (children : List ParseTree) : NodeKind :=
  match form with
  | .statementBlock => .statement .block
  | .emptyStatement => .statement .empty
  | .expressionStatement => .statement (.expression (isStringStatement children))
  | .ifStatement => .statement .conditional
  | .labeledStatement => .statement .labeled
  | .breakStatement => .statement .break
  | .continueStatement => .statement .continue
  | .withStatement => .statement .with
  | .switchStatement => .statement .switch
  | .returnStatement => .statement .return
  | .throwStatement => .statement .throw
  | .tryStatement => .statement .try
  | .whileStatement => .statement .while
  | .doStatement => .statement .doWhile
  | .forStatement => .statement .for
  | .forInStatement => .statement .forIn
  | .debuggerStatement => .statement .debugger
  | .lexicalDeclaration | .variableDeclaration => .statement .variableDeclaration
  | .functionDeclaration | .generatorFunctionDeclaration => .statement .functionDeclaration
  | .classDeclaration => .statement .classDeclaration
  | .importStatement => .statement .import
  | .exportStatement => .statement .export
  | .switchCase | .switchDefault => .switchCase
  | _ => .other

mutual

/-- Hangs the named nodes of a parse tree below a node of a syntax tree.  Comments are left out,
and the clauses of a switch hang off the switch itself. -/
def addTo (tree : SyntaxTree) (parent : Nat) : ParseTree → SyntaxTree
  | .node (.mark _) _ _ => tree
  | .node (.named form) span children =>
    if form.isComment then tree
    else if form = .switchBody then addAllTo tree parent children
    else
      match tree.push? parent (nodeKind form children) span with
      | some (id, grown) => addAllTo grown id children
      | none => tree

def addAllTo (tree : SyntaxTree) (parent : Nat) : List ParseTree → SyntaxTree
  | [] => tree
  | t :: ts => addAllTo (addTo tree parent t) parent ts

end

/-- The syntax tree of a program; its root has the given span. -/
def statements (whole : Span) (program : ParseTree) : SyntaxTree :=
  addAllTo (SyntaxTree.ofRoot whole) SyntaxTree.root program.children

end ParseTree
end Interline.JavaScript
