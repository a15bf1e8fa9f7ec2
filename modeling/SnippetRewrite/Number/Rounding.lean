import SnippetRewrite.Number.Double

/-!
Rounding of exact values to doubles. A ratio of natural numbers goes to the nearest double, a tie
to the one with the even significand; a decimal is such a ratio.
-/

namespace SnippetRewrite

/-- The quotient rounded to the nearest natural number, a tie going to the even one. -/
def divNearestEven (num den : Nat) : Nat :=
  let q := num / den
  let r := num % den
  if 2 * r < den then q
  else if den < 2 * r then q + 1
  else q + q % 2

namespace Double

/-- Multiplies by a power of two as a ratio: the numerator grows for a positive power, the
denominator for a negative one. -/
def scaled (num den : Nat) (power : Int) : Nat × Nat :=
  (num * Nat.pow 2 power.toNat, den * Nat.pow 2 (-power).toNat)

/-- The exponent at which the significand of a positive ratio has 53 bits, or the smallest exponent
if that is larger. -/
def exponentOf (num den : Nat) : Int :=
  let guess : Int := (num.log2 : Int) - den.log2 - 52
  let (n, d) := scaled num den (-guess)
  let exact := if 2 * (n / d) < significandBound then guess - 1 else guess
  max exact minExponent

/-- The double nearest to `± num / den`. -/
def ofRatio (negative : Bool) (num den : Nat) : Double :=
  if num = 0 then .finite negative 0 minExponent
  else
    let e := exponentOf num den
    let (n, d) := scaled num den (-e)
    let m := divNearestEven n d
    let (m, e) := if m = significandBound then (significandBound / 2, e + 1) else (m, e)
    if maxExponent < e then .infinite negative else .finite negative m e

def digitCount (n : Nat) : Nat :=
  if n = 0 then 0 else (Nat.toDigits 10 n).length

/-- The double nearest to `± digits · 10 ^ power`. Decimals above `10 ^ 309` and below `10 ^ -325`
are decided by their magnitude alone. -/
def ofDecimal (negative : Bool) (digits : Nat) (power : Int) : Double :=
  let magnitude : Int := digitCount digits + power
  if digits = 0 || magnitude < -324 then .finite negative 0 minExponent
  else if 309 < magnitude then .infinite negative
  else ofRatio negative (digits * Nat.pow 10 power.toNat) (Nat.pow 10 (-power).toNat)

end Double

end SnippetRewrite
