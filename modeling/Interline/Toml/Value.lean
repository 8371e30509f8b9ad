/-! # TOML values

The data of a TOML document.  Tables keep the order in which their keys were written. -/

namespace Interline.Toml

/-- A floating-point literal, by its exact decimal value. -/
inductive Decimal
  | finite (digits : Int) (exponent : Int)
  | infinite (negative : Bool)
  | notANumber

inductive Value
  | string (s : String)
  | integer (n : Int)
  | decimal (d : Decimal)
  | boolean (b : Bool)
  | array (items : List Value)
  | table (entries : List (String × Value))

namespace Value

def string? : Value → Option String
  | .string s => some s
  | _ => none

def boolean? : Value → Option Bool
  | .boolean b => some b
  | _ => none

def integer? : Value → Option Int
  | .integer n => some n
  | _ => none

/-- An integer that fits one byte without a sign. -/
def byte? (v : Value) : Option Nat := do
  let n ← v.integer?
  if 0 ≤ n ∧ n ≤ 255 then some n.toNat else none

def array? : Value → Option (List Value)
  | .array items => some items
  | _ => none

def strings? (v : Value) : Option (List String) := do (← v.array?).mapM string?

end Value
end Interline.Toml
