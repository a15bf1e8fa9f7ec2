import SnippetRewrite.Number.Rounding
import SnippetRewrite.Number.Shortest

/-!
Texts of doubles. A number is written with its shortest digits, positionally in a middle range and
with a power of ten outside it; it is read from a sign, digits, a fraction and an exponent.
-/

namespace SnippetRewrite

/-- Where the decimal point may stand for a number to be written positionally, and which digits are
taken on a tie. -/
structure Layout where
  leastPoint : Int
  greatestPoint : Int
  tie : Tie

/-- Numbers from `0.0001` up to `10 ^ 16`, that one excluded, are written positionally in source
text; of two equally near decimals the larger one is written. -/
def sourceLayout : Layout := ⟨-3, 16, .up⟩

def zeros (n : Nat) : String :=
  String.ofList (List.replicate n '0')

namespace Decimal

/-- Digits around a decimal point, with a digit on both sides of it. -/
def plain (digits : List Char) (point : Int) : String :=
  if point ≤ 0 then "0." ++ zeros (-point).toNat ++ String.ofList digits
  else
    let n := point.toNat
    if digits.length ≤ n then String.ofList digits ++ zeros (n - digits.length) ++ ".0"
    else String.ofList (digits.take n) ++ "." ++ String.ofList (digits.drop n)

/-- One digit before the point, the others behind it, and a power of ten. -/
def scientific (digits : List Char) (point : Int) : String :=
  let fraction := digits.drop 1
  String.ofList (digits.take 1) ++ (if fraction.isEmpty then "" else "." ++ String.ofList fraction)
    ++ "e" ++ toString (point - 1)

def text (layout : Layout) (d : Decimal) : String :=
  let digits := (toString d.digits).toList
  if layout.leastPoint ≤ d.point ∧ d.point ≤ layout.greatestPoint then plain digits d.point
  else scientific digits d.point

end Decimal

namespace Double

def finiteText (layout : Layout) (negative : Bool) (significand : Nat) (exponent : Int) : String :=
  (if negative then "-" else "")
    ++ if significand = 0 then "0.0" else (shortest layout.tie significand exponent).text layout

/-- The text of a number in source text, NaN and the infinities by the given names. -/
def text (nanName infinityName : String) : Double → String
  | .nan => nanName
  | .infinite negative => (if negative then "-" else "") ++ infinityName
  | .finite negative m e => finiteText sourceLayout negative m e

def digitsValue (digits : List Char) : Nat :=
  digits.foldl (fun n c => 10 * n + (c.toNat - '0'.toNat)) 0

/-- The number written by the digits before the point, those behind it, and an exponent. -/
def ofDigits (negative : Bool) (whole fraction : List Char) (exponent : Int) : Double :=
  ofDecimal negative (digitsValue (whole ++ fraction)) (exponent - fraction.length)

def cutSign : List Char → Bool × List Char
  | '-' :: cs => (true, cs)
  | '+' :: cs => (false, cs)
  | cs => (false, cs)

def readExponent : List Char → Option Int
  | [] => some 0
  | c :: cs =>
    let (negative, digits) := cutSign cs
    if (c = 'e' ∨ c = 'E') ∧ digits ≠ [] ∧ digits.all Char.isDigit then
      some (if negative then -(digitsValue digits : Int) else digitsValue digits)
    else none

/-- Reads a number from its whole text: digits with an optional point and exponent, or the names
`NaN`, `inf` and `infinity`, in any case. -/
def read? (text : String) : Option Double :=
  let (negative, cs) := cutSign text.toList
  let name := String.ofList (cs.map Char.toLower)
  if name = "nan" then some .nan
  else if name = "inf" ∨ name = "infinity" then some (.infinite negative)
  else
    let whole := cs.takeWhile Char.isDigit
    let (fraction, rest) :=
      match cs.dropWhile Char.isDigit with
      | '.' :: rest => (rest.takeWhile Char.isDigit, rest.dropWhile Char.isDigit)
      | rest => ([], rest)
    if whole = [] ∧ fraction = [] then none
    else (readExponent rest).map (ofDigits negative whole fraction)

end Double

end SnippetRewrite
