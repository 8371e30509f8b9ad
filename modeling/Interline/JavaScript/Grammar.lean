import Interline.JavaScript.Statement

/-! # Programs

The readers of statements and expressions tied together.  They contain each other to any depth; how
deep they can go is bounded by the length of the text, since no more than three of them start at
the same character. -/

namespace Interline.JavaScript

open Reader

/-- Reads a part of a program that goes no deeper than the bound. -/
def part : Nat → Grammar
  | 0, _ => failure
  | n + 1, goal => do
    match goal with
    | .statement => do
      statement (part n)
      return .plain
    | .body => do
      block (part n)
      return .plain
    | .expression c => expression (part n) c
    | .operand c => operand (part n) c

/-- The first line of a script that names its interpreter. -/
def hashBangLength (cs : List Char) : Nat :=
  if "#!".toList.isPrefixOf cs then (cs.takeWhile (· != '\n')).length else 0

/-- Reads a whole program. -/
def program : Reader Unit := do
  gap true
  let cs ← rest
  let bound := 4 * cs.length + 8
  if hashBangLength cs ≠ 0 then leaf (.named .hashBangLine) (hashBangLength cs)
  statements (part bound)
  gap true
  guard (← rest).isEmpty

/-- The parse tree of a program. -/
def parseTree? (text : List Char) : Option ParseTree := do
  let ((_, parts), s) ← (collect program).run ⟨text, 0, ⟨1, 0⟩, []⟩
  return .node (.named .program) (cover ⟨s.offset, s.offset, s.pos, s.pos⟩ parts) parts

end Interline.JavaScript
