import Interline.Span

/-! # Tokens

The pieces of a source text between white space, comments included. -/

namespace Interline

/-- Lexical category of a token. -/
inductive TokenKind
  | keyword
  | identifier
  | punctuator
  | string
  | template
  | numeric
  | regExp
  | lineComment
  | blockComment
deriving DecidableEq

/-- Whether tokens of this kind are comments. -/
def TokenKind.isComment : TokenKind → Bool
  | .lineComment | .blockComment => true
  | _ => false

/-- The kind of body that a closing brace ends. -/
inductive Body
  | block
  | «class»
  | switch
deriving DecidableEq

/-- A token; `closes` is set on a brace that ends a body. -/
structure Token where
  kind : TokenKind
  text : String
  span : Span
  closes : Option Body
deriving DecidableEq

namespace Token

def isComment (t : Token) : Bool := t.kind.isComment

/-- Whether the token is the punctuator that ends a statement. -/
def isSemicolon (t : Token) : Bool := t.kind == .punctuator && t.text == ";"

/-- Whether the token is the closing brace of a body. -/
def endsBody (t : Token) : Bool := t.text == "\x7d" && t.closes.isSome

end Token
end Interline
