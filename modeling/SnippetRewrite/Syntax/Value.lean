import SnippetRewrite.Number.Notation

/-!
Literal values and their source text. Equality of values is strict on types and numeric on floats,
so a value that holds a NaN differs from itself.
-/

namespace SnippetRewrite

inductive Value where
  | null
  | bool (b : Bool)
  | int (n : Int)
  | float (x : Double)
  | str (s : String)
  | array (items : List Value)
deriving Repr, Inhabited

namespace Value

def typeName : Value → String
  | null => "null"
  | bool _ => "bool"
  | int _ => "int"
  | float _ => "float"
  | str _ => "string"
  | array _ => "array"

def asString? : Value → Option String
  | str s => some s
  | _ => none

mutual

/-- Equality of values: of one type, with equal payloads. -/
def same : Value → Value → Bool
  | null, null => true
  | bool a, bool b => a == b
  | int m, int n => m == n
  | float x, float y => x.same y
  | str s, str t => s == t
  | array xs, array ys => sameItems xs ys
  | _, _ => false

def sameItems : List Value → List Value → Bool
  | [], [] => true
  | x :: xs, y :: ys => same x y && sameItems xs ys
  | _, _ => false

end

mutual

/-- Identity of values as data, under which a NaN is identical to itself. -/
def identical : Value → Value → Bool
  | null, null => true
  | bool a, bool b => decide (a = b)
  | int m, int n => decide (m = n)
  | float x, float y => decide (x = y)
  | str s, str t => decide (s = t)
  | array xs, array ys => identicalItems xs ys
  | _, _ => false

def identicalItems : List Value → List Value → Bool
  | [], [] => true
  | x :: xs, y :: ys => identical x y && identicalItems xs ys
  | _, _ => false

end

mutual

theorem identical_iff : (v w : Value) → (identical v w = true ↔ v = w)
  | array xs, w => by
    cases w with
    | array ys => simp [identical, identicalItems_iff xs ys]
    | _ => simp [identical]
  | null, w | bool _, w | int _, w | float _, w | str _, w => by cases w <;> simp [identical]

theorem identicalItems_iff : (xs ys : List Value) → (identicalItems xs ys = true ↔ xs = ys)
  | [], ys => by cases ys <;> simp [identicalItems]
  | x :: xs, ys => by
    cases ys with
    | nil => simp [identicalItems]
    | cons y ys => simp [identicalItems, identical_iff x y, identicalItems_iff xs ys]

end

instance : DecidableEq Value := fun v w => decidable_of_iff _ (identical_iff v w)

/-- How a character of a string literal is written. -/
def escaped : Char → List Char
  | '"' => ['\\', '"']
  | '\\' => ['\\', '\\']
  | '\n' => ['\\', 'n']
  | '\t' => ['\\', 't']
  | '\r' => ['\\', 'r']
  | '\x00' => ['\\', '0']
  | c => [c]

def quoted (s : String) : String :=
  String.ofList ('"' :: s.toList.flatMap escaped ++ ['"'])

mutual

def text : Value → String
  | null => "null"
  | bool true => "true"
  | bool false => "false"
  | int n => toString n
  | float x => x.text "NAN" "INF"
  | str s => quoted s
  | array items => "[" ++ itemsText items ++ "]"

def itemsText : List Value → String
  | [] => ""
  | [x] => text x
  | x :: y :: rest => text x ++ ", " ++ itemsText (y :: rest)

end

end Value

end SnippetRewrite
