/-!
Operators of the host language: their symbols, which of them have a compound assignment, and how
tightly they bind.
-/

namespace SnippetRewrite

inductive BinaryOp where
  | add | sub | mul | div | mod | pow | concat
  | shiftLeft | shiftRight | bitOr | bitAnd | bitXor
  | boolAnd | boolOr
  | equal | notEqual | identical | notIdentical
  | less | lessEqual | greater | greaterEqual
deriving DecidableEq, Repr, Inhabited

inductive UnaryOp where
  | not | neg | plus | bitNot
deriving DecidableEq, Repr, Inhabited

namespace BinaryOp

def all : List BinaryOp :=
  [add, sub, mul, div, mod, pow, concat, shiftLeft, shiftRight, bitOr, bitAnd, bitXor, boolAnd,
   boolOr, equal, notEqual, identical, notIdentical, less, lessEqual, greater, greaterEqual]

def symbol : BinaryOp → String
  | add => "+"
  | sub => "-"
  | mul => "*"
  | div => "/"
  | mod => "%"
  | pow => "**"
  | concat => "."
  | shiftLeft => "<<"
  | shiftRight => ">>"
  | bitOr => "|"
  | bitAnd => "&"
  | bitXor => "^"
  | boolAnd => "&&"
  | boolOr => "||"
  | equal => "=="
  | notEqual => "!="
  | identical => "==="
  | notIdentical => "!=="
  | less => "<"
  | lessEqual => "<="
  | greater => ">"
  | greaterEqual => ">="

def ofSymbol? (symbol : String) : Option BinaryOp :=
  all.find? fun op => op.symbol = symbol

/-- Whether `target op= value` is an assignment. -/
def hasCompoundForm : BinaryOp → Bool
  | boolAnd | boolOr | equal | notEqual | identical | notIdentical
  | less | lessEqual | greater | greaterEqual => false
  | _ => true

theorem mem_all (op : BinaryOp) : op ∈ all := by
  cases op <;> decide

theorem ofSymbol?_symbol (op : BinaryOp) : ofSymbol? op.symbol = some op := by
  cases op <;> decide

end BinaryOp

namespace UnaryOp

def symbol : UnaryOp → String
  | not => "!"
  | neg => "-"
  | plus => "+"
  | bitNot => "~"

end UnaryOp

/-! Binding strengths, loosest first. -/

namespace Strength

def loosest : Nat := 0
def assignment : Nat := 1
def conditional : Nat := 2
def loosestBinary : Nat := 3
def tightestBinary : Nat := 12
def instanceTest : Nat := 13
def unary : Nat := 14
def power : Nat := 15
def postfixed : Nat := 16
def primary : Nat := 17

end Strength

/-- How tightly a binary operator binds. All but the power associate to the left. -/
def BinaryOp.strength : BinaryOp → Nat
  | boolOr => 3
  | boolAnd => 4
  | bitOr => 5
  | bitXor => 6
  | bitAnd => 7
  | equal | notEqual | identical | notIdentical => 8
  | less | lessEqual | greater | greaterEqual => 9
  | shiftLeft | shiftRight => 10
  | add | sub | concat => 11
  | mul | div | mod => 12
  | pow => Strength.power

theorem BinaryOp.strength_le (op : BinaryOp) (h : op ≠ pow) :
    Strength.loosestBinary ≤ op.strength ∧ op.strength ≤ Strength.tightestBinary := by
  cases op <;> first | decide | exact absurd rfl h

end SnippetRewrite
