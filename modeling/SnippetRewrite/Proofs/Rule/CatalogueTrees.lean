import Mathlib.Data.List.Forall2
import SnippetRewrite.Rule.Snippet
import SnippetRewrite.Rule.Catalogue

/-!
The rules of the catalogue as trees: what each of their texts is read as, before names are marked as
capture points. The texts are read group by group, and never again.
-/

namespace SnippetRewrite

namespace Catalogue

def read (source : String) : Except ParseError Tree :=
  (SnippetReader.ofSigil defaultSigil).program source

def readRule (r : CatalogueRule) : Except ParseError Tree × Except ParseError Tree :=
  (read r.source, read r.replacement)

/-! ### The trees -/

def statements (items : List Tree) : Tree := .list .stmtList items 1

def variableX : Tree := .var "$x" 1

def variableY : Tree := .var "$y" 1

def body : Tree := .var "$body" 1

def binary (op : BinaryOp) (left right : Tree) : Tree :=
  .fixed (.binary op) [some left, some right] 1

def constant (b : Bool) : Tree := .literal (.bool b) 1

def branch (condition : Bool) : Tree :=
  .fixed .ifElse [some (constant condition), some (statements [body]), none] 1

def loop (step : FixedKind) : Tree :=
  .fixed .forLoop
    [some (.var "$init" 1), some (.var "$cond" 1), some (.fixed step [some (.var "$v" 1)] 1),
      some body] 1

def addOne (op : BinaryOp) : Tree :=
  .fixed (.assignOp op) [some variableX, some (.literal (.int 1) 1)] 1

def step (kind : FixedKind) : Tree :=
  .fixed kind [some variableX] 1

def constantConditionTrees : List (Tree × Tree) :=
  [(binary .boolAnd (constant true) variableX, variableX),
   (binary .boolAnd variableX (constant true), variableX),
   (binary .boolOr (constant true) variableX, constant true),
   (binary .boolOr variableX (constant true), constant true),
   (binary .boolAnd (constant false) variableX, constant false),
   (binary .boolAnd variableX (constant false), constant false),
   (binary .boolOr (constant false) variableX, variableX),
   (binary .boolOr variableX (constant false), variableX)]

def constantBranchTrees : List (Tree × Tree) :=
  [(branch true, body), (branch false, statements [])]

def stepTrees : List (Tree × Tree) :=
  [(loop .postInc, loop .preInc), (loop .postDec, loop .preDec), (addOne .add, step .preInc),
   (addOne .sub, step .preDec)]

def assignmentTree (op : BinaryOp) : Tree :=
  .fixed .assign [some variableX, some (binary op variableX variableY)] 1

def compoundTree (op : BinaryOp) : Tree :=
  .fixed (.assignOp op) [some variableX, some variableY] 1

def classTestTrees : List (Tree × Tree) :=
  [(.fixed .call [some (.name "is_a" 1), some (.list .argList [variableX, variableY] 1)] 1,
    .fixed .instanceTest [some variableX, some variableY] 1)]

/-! ### Reading -/

theorem read_constantConditions : constantConditions.map readRule =
    constantConditionTrees.map fun t => (.ok (statements [t.1]), .ok (statements [t.2])) := by
  decide +kernel

theorem read_constantBranches : constantBranches.map readRule =
    constantBranchTrees.map fun t => (.ok (statements [t.1]), .ok (statements [t.2])) := by
  decide +kernel

theorem read_steps : (increments.take 4).map readRule =
    stepTrees.map fun t => (.ok (statements [t.1]), .ok (statements [t.2])) := by
  decide +kernel

theorem read_assignments : ∀ op ∈ compoundOperators,
    read ("$x = $x " ++ op.symbol ++ " $y") = .ok (statements [assignmentTree op]) := by
  decide +kernel

theorem read_compounds : ∀ op ∈ compoundOperators,
    read ("$x " ++ op.symbol ++ "= $y") = .ok (statements [compoundTree op]) := by
  decide +kernel

theorem read_classTests : classTests.map readRule =
    classTestTrees.map fun t => (.ok (statements [t.1]), .ok (statements [t.2])) := by
  decide +kernel

/-- The trees of the catalogue, in the order of registration. -/
def trees : List (Tree × Tree) :=
  constantConditionTrees ++ constantBranchTrees ++
    (stepTrees ++ compoundOperators.map fun op => (assignmentTree op, compoundTree op)) ++
      classTestTrees

theorem read_increments : increments.map readRule =
    (stepTrees ++ compoundOperators.map fun op => (assignmentTree op, compoundTree op)).map
      fun t => (.ok (statements [t.1]), .ok (statements [t.2])) := by
  have hsteps : increments.map readRule = (increments.take 4).map readRule ++
      compoundOperators.map fun op =>
        (read ("$x = $x " ++ op.symbol ++ " $y"), read ("$x " ++ op.symbol ++ "= $y")) := rfl
  rw [hsteps, read_steps, List.map_append, List.map_map]
  refine congrArg _ (List.map_congr_left fun op hop => ?_)
  rw [read_assignments op hop, read_compounds op hop]
  rfl

theorem read_all : all.map readRule =
    trees.map fun t => (.ok (statements [t.1]), .ok (statements [t.2])) := by
  simp only [all, trees, List.map_append, read_constantConditions, read_constantBranches,
    read_increments, read_classTests]

end Catalogue

end SnippetRewrite
