import Interline.SourceModel

/-! # Statement types

The categories of statements that a rule can name.  A type is a test on a node that looks at the
node's kind and at its first and last tokens; labels are not looked through here. -/

namespace Interline

/-- Words by which statements are known that start with them. -/
inductive Keyword
  | «break»
  | «case»
  | «class»
  | «const»
  | «continue»
  | «debugger»
  | «default»
  | «do»
  | «export»
  | «for»
  | «function»
  | «if»
  | «import»
  | «let»
  | «return»
  | «switch»
  | «throw»
  | «try»
  | «var»
  | «while»
  | «with»
deriving DecidableEq

namespace Keyword

/-- All keywords in alphabetical order. -/
def all : List Keyword :=
  [.«break», .«case», .«class», .«const», .«continue», .«debugger», .«default», .«do», .«export»,
    .«for», .«function», .«if», .«import», .«let», .«return», .«switch», .«throw», .«try», .«var»,
    .«while», .«with»]

/-- The spelling of a keyword. -/
def word : Keyword → String
  | .«break» => "break"
  | .«case» => "case"
  | .«class» => "class"
  | .«const» => "const"
  | .«continue» => "continue"
  | .«debugger» => "debugger"
  | .«default» => "default"
  | .«do» => "do"
  | .«export» => "export"
  | .«for» => "for"
  | .«function» => "function"
  | .«if» => "if"
  | .«import» => "import"
  | .«let» => "let"
  | .«return» => "return"
  | .«switch» => "switch"
  | .«throw» => "throw"
  | .«try» => "try"
  | .«var» => "var"
  | .«while» => "while"
  | .«with» => "with"

end Keyword

/-- A category of statements. -/
inductive StatementType
  | any
  | block
  | blockLike
  | multilineBlockLike
  | directive
  | empty
  | expression
  | keyword (word : Keyword)
deriving DecidableEq

namespace StatementType

/-- All types in the order in which they are listed to a reader. -/
def all : List StatementType :=
  [.any, .block, .blockLike, .multilineBlockLike, .directive, .empty, .expression]
    ++ Keyword.all.map .keyword

/-- The name by which a rule refers to a type. -/
def name : StatementType → String
  | .any => "*"
  | .block => "block"
  | .blockLike => "block-like"
  | .multilineBlockLike => "multiline-block-like"
  | .directive => "directive"
  | .empty => "empty"
  | .expression => "expression"
  | .keyword k => k.word

def description : StatementType → String
  | .any => "every statement"
  | .block => "bare block statements"
  | .blockLike => "statements ending with a block, switch or class body"
  | .multilineBlockLike => "block-like statements spanning several lines"
  | .directive => "string literal statements such as \"use strict\""
  | .empty => "empty statements"
  | .expression => "expression statements"
  | .keyword _ => "statements starting with this keyword"

/-- The type of a name. -/
def ofName? (s : String) : Option StatementType := all.find? fun t => t.name == s

/-- Whether a node ends with the brace of a body, a closing semicolon aside. -/
def isBlockLike (m : SourceModel) (n : Node) : Bool :=
  ((m.tokens.lastIn n.span fun t => !t.isSemicolon).bind m.token?).any Token.endsBody

/-- The line on which a node's last token ends. -/
def lastLine (m : SourceModel) (n : Node) : Nat :=
  match (m.tokens.lastIn n.span fun _ => true).bind m.token? with
  | some t => t.span.stopPos.line
  | none => n.span.stopPos.line

/-- Whether a node belongs to a type. -/
def holdsFor (m : SourceModel) (n : Node) : StatementType → Bool
  | .any => true
  | .block => n.kind == .statement .block
  | .blockLike => isBlockLike m n
  | .multilineBlockLike => isBlockLike m n && n.span.startPos.line != lastLine m n
  | .directive => n.kind == .statement (.expression true)
  | .empty => n.kind == .statement .empty
  | .expression =>
    n.kind == .statement (.expression true) || n.kind == .statement (.expression false)
  | .keyword k => ((m.tokens.firstIn n.span).bind m.token?).any fun t => t.text == k.word

/-- Whether the node with this id belongs to a type. -/
def matches? (type : StatementType) (m : SourceModel) (id : Nat) : Except ModelError Bool := do
  return type.holdsFor m (← m.node id)

end StatementType
end Interline
