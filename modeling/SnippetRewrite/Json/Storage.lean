import SnippetRewrite.Arena.Basic
import SnippetRewrite.Json.Number

/-!
Arenas that are stored as JSON and read back. All of an arena survives but its floats, which are
read by scaling. An arena cannot be read back if it holds a NaN, an infinity, a float that scales
beyond the doubles, or a value that nests too deep.
-/

namespace SnippetRewrite

/-- How many lists and records may stand inside each other in a JSON text. -/
def Json.maxNesting : Nat := 127

namespace Value

mutual

/-- How deep the lists and records nest that a value is stored as: a record around every value but
null, and a list inside it for an array. -/
def nesting : Value → Nat
  | null => 0
  | array items => nestingAmong items + 2
  | _ => 1

def nestingAmong : List Value → Nat
  | [] => 0
  | v :: rest => max (nesting v) (nestingAmong rest)

end

mutual

/-- The value that is read back for a stored one. -/
def restored? : Value → Option Value
  | float x => (Json.ofDouble x).asDouble?.map float
  | array items => (restoredItems? items).map array
  | v => some v

def restoredItems? : List Value → Option (List Value)
  | [] => some []
  | v :: rest => do pure ((← restored? v) :: (← restoredItems? rest))

end

end Value

/-- The lists and records around the value of a leaf: those for the arena, its nodes, the node with
its line, its kind, and the leaf. -/
def Cell.nestingAround : Nat := 5

def Cell.restored? (c : Cell) : Option Cell :=
  match c.label with
  | .leaf kind v =>
    if Cell.nestingAround + v.nesting ≤ Json.maxNesting then
      v.restored?.map fun v => { c with label := .leaf kind v }
    else none
  | _ => some c

def Arena.restored? (a : Arena) : Option Arena := do
  let cells ← a.cells.toList.mapM (Option.mapM Cell.restored?)
  pure { a with cells := cells.toArray }

end SnippetRewrite
