import SnippetRewrite.Json.Value

/-!
Records in JSON: an object, whose unknown fields are ignored, or an array of the leading fields in
their order. A field may stand in an object once.
-/

namespace SnippetRewrite

namespace Json

def asBool? : Json → Option Bool
  | bool b => some b
  | _ => none

def asString? : Json → Option String
  | string text => text
  | _ => none

def asChar? (j : Json) : Option Char :=
  match j.asString?.map String.toList with
  | some [c] => some c
  | _ => none

/-- One more than the largest natural number that is accepted. -/
def naturalBound : Nat := Nat.pow 2 64

def asNat? : Json → Option Nat
  | number text =>
    let digits := text.toList
    if digits.all Char.isDigit && Double.digitsValue digits < naturalBound then
      some (Double.digitsValue digits)
    else none
  | _ => none

/-- The named fields of an object, if all its keys have a text. -/
def namedFields : List (Option String × Json) → Option (List (String × Json))
  | [] => some []
  | (none, _) :: _ => none
  | (some key, value) :: rest => (namedFields rest).map ((key, value) :: ·)

/-- The fields of a record with the given field names. -/
def record? (names : List String) : Json → Option (List (String × Json))
  | object fields => namedFields fields
  | array items => if items.length ≤ names.length then some (names.zip items) else none
  | _ => none

/-- A field of a record; an inner none if it is missing, none if it occurs twice or is not what it
should be. -/
def field? {α : Type} (fields : List (String × Json)) (name : String) (read : Json → Option α) :
    Option (Option α) :=
  match fields.filter fun f => f.1 = name with
  | [] => some none
  | [(_, value)] => (read value).map some
  | _ => none

def fieldOr? {α : Type} (fields : List (String × Json)) (name : String) (read : Json → Option α)
    (default : α) : Option α :=
  (field? fields name read).map (·.getD default)

end Json

end SnippetRewrite
