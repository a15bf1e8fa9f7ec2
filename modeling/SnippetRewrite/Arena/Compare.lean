import SnippetRewrite.Arena.Basic

/-!
Structural equality of subtrees, in one arena or two. Lines, the numbers of the slots and the slots
that a kind does not use play no part.
-/

namespace SnippetRewrite

/-- Compares child slots pairwise and stops at the first difference. -/
def sameSlotsBy (same : NodeId → NodeId → Except Fault Bool) :
    List (Option NodeId) → List (Option NodeId) → Except Fault Bool
  | [], [] => .ok true
  | none :: xs, none :: ys => sameSlotsBy same xs ys
  | some x :: xs, some y :: ys => do
    if ← same x y then sameSlotsBy same xs ys else pure false
  | _, _ => .ok false

namespace Arena

def sameWithin (a b : Arena) : Nat → NodeId → NodeId → Except Fault Bool
  | 0, x, _ => .error (.endless x)
  | fuel + 1, x, y => do
    let c ← a.cell x
    let d ← b.cell y
    if c.label.same d.label ∧ c.childCount = d.childCount then
      sameSlotsBy (sameWithin a b fuel) c.used d.used
    else pure false

def same (a : Arena) (x : NodeId) (b : Arena) (y : NodeId) : Except Fault Bool :=
  a.sameWithin b a.depthBound x y

def sameTree (a b : Arena) : Except Fault Bool :=
  match a.root, b.root with
  | some x, some y => a.same x b y
  | none, none => .ok true
  | _, _ => .ok false

end Arena

end SnippetRewrite
