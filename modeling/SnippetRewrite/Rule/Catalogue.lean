import SnippetRewrite.Syntax.Operator

/-!
The catalogue of rules that come with the program, as source snippets in groups.
-/

namespace SnippetRewrite

structure CatalogueRule where
  group : String
  source : String
  replacement : String
deriving DecidableEq, Repr

namespace Catalogue

/-- Logical operators with a constant operand. -/
def constantConditions : List CatalogueRule :=
  [("true && $x", "$x"), ("$x && true", "$x"), ("true || $x", "true"), ("$x || true", "true"),
   ("false && $x", "false"), ("$x && false", "false"), ("false || $x", "$x"),
   ("$x || false", "$x")].map fun (source, replacement) => ⟨"cond_elim", source, replacement⟩

/-- Branches with a constant condition and no `else`. -/
def constantBranches : List CatalogueRule :=
  [⟨"branch_elim", "if (true) \x7b $body; \x7d", "$body;"⟩,
   ⟨"branch_elim", "if (false) \x7b $body; \x7d", "\x7b\x7d"⟩]

/-- The operators of `$x = $x op $y` that become compound assignments. -/
def compoundOperators : List BinaryOp :=
  [.mul, .div, .add, .sub, .pow, .mod, .shiftLeft, .shiftRight, .concat, .bitOr, .bitAnd, .bitXor]

/-- Steps by one, and assignments that repeat their target. -/
def increments : List CatalogueRule :=
  [("for ($init; $cond; $v++) $body;", "for ($init; $cond; ++$v) $body;"),
   ("for ($init; $cond; $v--) $body;", "for ($init; $cond; --$v) $body;"),
   ("$x += 1", "++$x"),
   ("$x -= 1", "--$x")].map (fun (source, replacement) => ⟨"incr_decr", source, replacement⟩)
  ++ compoundOperators.map fun op =>
    ⟨"incr_decr", "$x = $x " ++ op.symbol ++ " $y", "$x " ++ op.symbol ++ "= $y"⟩

def classTests : List CatalogueRule :=
  [⟨"instanceof", "is_a($x, $y)", "$x instanceof $y"⟩]

/-- The whole catalogue in the order of registration. -/
def all : List CatalogueRule :=
  constantConditions ++ constantBranches ++ increments ++ classTests

end Catalogue

end SnippetRewrite
