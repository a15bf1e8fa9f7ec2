import SnippetRewrite.Number.Double

/-!
The shortest decimal of a double: the fewest digits whose value rounds back to the number, and of
the decimals with so many digits the nearest one. A rule for ties decides between two that are
equally near.

The decimals with `k` digits form a grid. If a point of a grid lies in the interval that rounds to
the number, so does one of the number's two neighbours on that grid, so only these are tried.
-/

namespace SnippetRewrite

/-- A decimal `0.d₁d₂… · 10 ^ point`, where `d₁d₂…` are the digits of `digits`. -/
structure Decimal where
  digits : Nat
  point : Int
deriving DecidableEq, Repr

/-- Which of two equally near decimals is taken: the larger one, or the one with the even digit. -/
inductive Tie where
  | up
  | even
deriving DecidableEq, Repr

/-- Whether the lower neighbour on a grid is taken, `rest / den` of a step below the number. -/
def Tie.takesLower (tie : Tie) (down rest den : Nat) : Bool :=
  match tie with
  | .up => 2 * rest < den
  | .even => 2 * rest < den || (2 * rest = den && down % 2 = 0)

namespace Double

/-- A positive number as a ratio together with the half gaps to its neighbours, all over one
denominator. -/
structure Interval where
  value : Nat
  below : Nat
  above : Nat
  den : Nat
  closed : Bool

/-- The interval of reals that round to `significand · 2 ^ exponent`. Its ends round to it iff the
significand is even; the gap below a power of two is half the gap above. -/
def interval (significand : Nat) (exponent : Int) : Interval :=
  let up := Nat.pow 2 exponent.toNat
  let narrow := 2 * significand = significandBound && minExponent < exponent
  { value := 4 * significand * up
    below := (if narrow then 1 else 2) * up
    above := 2 * up
    den := 4 * Nat.pow 2 (-exponent).toNat
    closed := significand % 2 = 0 }

def Interval.contains (i : Interval) (num den : Nat) : Bool :=
  let x := num * i.den
  let low := (i.value - i.below) * den
  let high := (i.value + i.above) * den
  if i.closed then low ≤ x && x ≤ high else low < x && x < high

/-- The least `p` from a start on with `num / den < 10 ^ p`. -/
def pointFrom (num den : Nat) : Nat → Int → Int
  | 0, p => p
  | fuel + 1, p =>
    if num * Nat.pow 10 (-p).toNat < den * Nat.pow 10 p.toNat then p
    else pointFrom num den fuel (p + 1)

/-- The `p` with `10 ^ (p - 1) ≤ num / den < 10 ^ p`, of a positive ratio. The binary logarithm
gives a start at most a few steps below. -/
def pointOf (num den : Nat) : Int :=
  pointFrom num den 8 ((((num.log2 : Int) - den.log2 - 1) * 30103).fdiv 100000 - 1)

/-- The nearest decimal of at most `count` digits that rounds back, if one does. -/
def onGrid (tie : Tie) (i : Interval) (point : Int) (count : Nat) : Option Nat :=
  let power : Int := point - count
  let num := i.value * Nat.pow 10 (-power).toNat
  let den := i.den * Nat.pow 10 power.toNat
  let down := num / den
  let rest := num % den
  let fits (d : Nat) := i.contains (d * Nat.pow 10 power.toNat) (Nat.pow 10 (-power).toNat)
  match fits down, fits (down + 1) with
  | true, true => if tie.takesLower down rest den then some down else some (down + 1)
  | true, false => some down
  | false, true => some (down + 1)
  | false, false => none

def shortestFrom (tie : Tie) (i : Interval) (point : Int) : Nat → Nat → Decimal
  | 0, count => ⟨i.value / i.den, point + count⟩
  | fuel + 1, count =>
    match onGrid tie i point count with
    | some d => if d = Nat.pow 10 count then ⟨1, point + 1⟩ else ⟨d, point⟩
    | none => shortestFrom tie i point fuel (count + 1)

def shortest (tie : Tie) (significand : Nat) (exponent : Int) : Decimal :=
  let i := interval significand exponent
  shortestFrom tie i (pointOf i.value i.den) 17 1

end Double

end SnippetRewrite
