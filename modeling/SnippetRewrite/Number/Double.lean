/-!
Double-precision numbers as values: the special values, and `± significand · 2 ^ exponent`. The
comparison is the numeric one, under which a NaN differs from itself and the two zeros agree.
-/

namespace SnippetRewrite

inductive Double where
  | nan
  | infinite (negative : Bool)
  | finite (negative : Bool) (significand : Nat) (exponent : Int)
deriving DecidableEq, Repr, Inhabited

namespace Double

/-- The exponent of the smallest positive number. -/
def minExponent : Int := -1074

/-- The exponent of the largest finite numbers. -/
def maxExponent : Int := 971

/-- One more than the largest significand. -/
def significandBound : Nat := Nat.pow 2 53

def zero : Double := .finite false 0 minExponent

def isNan : Double → Bool
  | .nan => true
  | _ => false

/-- Numeric equality. -/
def same : Double → Double → Bool
  | .infinite s, .infinite t => s == t
  | .finite s m e, .finite t n f => (m == 0 && n == 0) || (s == t && m == n && e == f)
  | _, _ => false

theorem same_self (x : Double) : x.same x = !x.isNan := by
  cases x <;> simp [same, isNan]

theorem same_comm (x y : Double) : x.same y = y.same x := by
  cases x <;> cases y <;> simp [same, Bool.beq_eq_decide_eq, eq_comm, Bool.and_comm]

end Double

end SnippetRewrite
