import SnippetRewrite.Number.Rounding

/-!
Decimals by scaling: a natural number is rounded to a double, which is then multiplied or divided by
a power of ten that is rounded as well. The result may differ in the last place from the double
nearest to the decimal, which is rounded only once.
-/

namespace SnippetRewrite

namespace Double

def isZero : Double → Bool
  | .finite _ 0 _ => true
  | _ => false

/-- The exponent of the largest power of ten that rounds to a finite double. -/
def maxPower : Nat := 308

def timesPower (x : Double) (power : Nat) : Double :=
  match x, ofRatio false (Nat.pow 10 power) 1 with
  | .finite negative m e, .finite _ n f =>
    let (num, den) := scaled (m * n) 1 (e + f)
    ofRatio negative num den
  | x, _ => x

def overPower (x : Double) (power : Nat) : Double :=
  match x, ofRatio false (Nat.pow 10 power) 1 with
  | .finite negative m e, .finite _ n f =>
    let (num, den) := scaled m n (e - f)
    ofRatio negative num den
  | x, _ => x

/-- Divides by the largest power of ten so many times, until only zero is left, and then by
`10 ^ power`. -/
def overLargest (power : Nat) : Nat → Double → Double
  | 0, x => x.overPower power
  | times + 1, x => if x.isZero then x else overLargest power times (x.overPower maxPower)

/-- Divides by `10 ^ power`, by powers that are doubles one after the other. -/
def overAny (x : Double) (power : Nat) : Double :=
  let times := (power - 1) / maxPower
  overLargest (power - times * maxPower) times x

/-- The double that `± significand · 10 ^ power` scales to; none if it is too large. -/
def ofScaled? (negative : Bool) (significand : Nat) (power : Int) : Option Double :=
  let x := ofRatio negative significand 1
  if x.isZero then some x
  else if power < 0 then some (x.overAny (-power).toNat)
  else if (maxPower : Int) < power then none
  else
    match x.timesPower power.toNat with
    | .infinite _ => none
    | y => some y

end Double

end SnippetRewrite
