import Interline.Text
import Interline.TokenStore
import Interline.SyntaxTree

/-! # Source models

What a language adapter knows of a file: its text, its tokens and its statements.  A model need
not be coherent, so every question about a statement can fail; `ModelError` lists the reasons. -/

namespace Interline

/-- Defects of a source model that a question about a statement can meet. -/
inductive ModelError
  | danglingNode (id : Nat)
  | missingToken (id : Nat) (pos : Position)
  | missingLabelBody (id : Nat)
deriving DecidableEq

/-- The text shown for a defect. -/
def ModelError.message : ModelError → String
  | .danglingNode id => s!"node #{id} is not part of the syntax tree"
  | .missingToken id pos => s!"statement #{id} at {pos.line}:{pos.column} has no tokens"
  | .missingLabelBody id => s!"labeled statement #{id} has no body"

structure SourceModel where
  text : String
  tokens : TokenStore
  tree : SyntaxTree

namespace SourceModel

variable (m : SourceModel)

def node (id : Nat) : Except ModelError Node :=
  match m.tree.node? id with
  | some n => .ok n
  | none => .error (.danglingNode id)

/-- A token by an index that the model's own token store gave out. -/
def token? (i : Nat) : Option Token := m.tokens.get? i

/-- The first token of a statement. -/
def firstToken (id : Nat) : Except ModelError Nat := do
  let n ← m.node id
  match m.tokens.firstIn n.span with
  | some i => return i
  | none => throw (.missingToken id n.span.startPos)

/-- Whether the last token of a node is a semicolon that belongs to the line of the next statement:
it starts a line, something of the node stands before it, and code follows on its line. -/
def isLeadingSemicolon (n : Node) (last : Nat) : Option Nat := do
  let semicolon ← m.token? last
  guard semicolon.isSemicolon
  let i ← m.tokens.before last false
  let previous ← m.token? i
  let next ← m.token? (← m.tokens.after last false)
  guard (n.span.start ≤ previous.span.start)
  guard (semicolon.span.startPos.line ≠ previous.span.stopPos.line)
  guard (semicolon.span.stopPos.line = next.span.startPos.line)
  return i

/-- The token that ends a statement.  In code without semicolons, one that guards the next
statement is passed over. -/
def lastToken (id : Nat) : Except ModelError Nat := do
  let n ← m.node id
  match m.tokens.lastIn n.span fun _ => true with
  | some last => return (m.isLeadingSemicolon n last).getD last
  | none => throw (.missingToken id n.span.startPos)

/-- Follows labels down to the statement that they stand before. -/
def unwrapLabels (m : SourceModel) (id : Nat) : Except ModelError Nat :=
  match _h : m.tree.node? id with
  | none => .error (.danglingNode id)
  | some n =>
    if n.kind = .statement .labeled then
      match _hc : n.children.find? m.tree.isStatement with
      | none => .error (.missingLabelBody id)
      | some child => m.unwrapLabels child
    else .ok id
termination_by m.tree.size - id
decreasing_by
  have := SyntaxTree.child_bounds _h (List.mem_of_find?_eq_some _hc)
  omega

end SourceModel

/-- What makes source models of files: the extensions of the files, and the model of a text, if the
text is a program. -/
structure Adapter where
  extensions : List String
  model? : String → Option SourceModel

end Interline
