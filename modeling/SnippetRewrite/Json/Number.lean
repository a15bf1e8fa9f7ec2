import SnippetRewrite.Json.Record
import SnippetRewrite.Number.Scaling

/-!
Doubles in JSON. A finite number is written with its shortest digits; a NaN and the infinities are
written as null. A number is read by scaling its leading digits, as many of them as stay below the
bound for natural numbers. What is read may thus differ in the last place from what was written.
-/

namespace SnippetRewrite

namespace Json

/-- Numbers from `0.00001` up to `10 ^ 16`, that one excluded, are written positionally in JSON; of
two equally near decimals the one with the even digit is written. -/
def layout : Layout := ⟨-4, 16, .even⟩

def ofDouble : Double → Json
  | .finite negative m e => .number (Double.finiteText layout negative m e)
  | _ => .null

/-- Appends digits to a natural number up to the first that would take it beyond the bound; answers
how many were appended. -/
def appendDigits : Nat → List Char → Nat × Nat
  | n, [] => (n, 0)
  | n, c :: digits =>
    let longer := 10 * n + (c.toNat - '0'.toNat)
    if longer < naturalBound then
      let (n, count) := appendDigits longer digits
      (n, count + 1)
    else (n, 0)

/-- The double that a decimal literal scales to. A digit of the whole part that is left out counts
as a zero. -/
def scaledLiteral? (negative : Bool) (l : DecimalLiteral) : Option Double :=
  let (n, count) := appendDigits 0 l.whole
  let (n, places) := appendDigits n l.fraction
  Double.ofScaled? negative n ((l.whole.length : Int) - count - places + l.exponentValue)

def asDouble? : Json → Option Double
  | number text =>
    let (negative, digits) := Double.cutSign text.toList
    scaledLiteral? negative (DecimalLiteral.scan digits)
  | _ => none

end Json

end SnippetRewrite
