import Interline.JavaScript.Grammar
import Interline.SourceModel

/-! # Source models of JavaScript programs

A program that the grammar accepts becomes a source model: its tokens are the leaves of the parse
tree, and its statements are the named nodes. -/

namespace Interline.JavaScript

/-- The span of a whole text. -/
def wholeSpan (text : List Char) : Span :=
  let stop := Text.byteLength text
  ⟨0, stop, ⟨1, 0⟩, text.foldl positionAfter ⟨1, 0⟩⟩

/-- The source model of a program; there is none if the text breaks the rules of the language. -/
def model? (text : String) : Option SourceModel := do
  let source := text.toList
  let program ← parseTree? source
  return {
    text := text
    tokens := TokenStore.ofList (program.tokens source)
    tree := program.statements (wholeSpan source) }

/-- What makes source models of JavaScript files. -/
def adapter : Adapter := ⟨["js", "mjs", "cjs", "jsx"], model?⟩

end Interline.JavaScript
