import SnippetRewrite.Arena.Basic
import SnippetRewrite.Syntax.Outline
import SnippetRewrite.Syntax.Printer

/-!
Reading an arena: the tree under a node, its source text and outline, and its nodes in preorder.
-/

namespace SnippetRewrite

namespace Arena

def treeWithin (a : Arena) : Nat → NodeId → Except Fault Tree
  | 0, id => .error (.endless id)
  | fuel + 1, id => do
    let c ← a.cell id
    let slots ← c.used.mapM (Option.mapM (treeWithin a fuel))
    pure (.node c.line c.label slots)

def tree (a : Arena) (id : NodeId) : Except Fault Tree :=
  a.treeWithin a.depthBound id

def printableWithin (a : Arena) : Nat → NodeId → Except Fault Tree
  | 0, id => .error (.endless id)
  | fuel + 1, id => do
    let c ← a.cell id
    let slots ← c.label.inSourceOrder (printableWithin a fuel) c.used
    pure (.node c.line c.label slots)

/-- The tree under a node, read in the order of its source text: of several dead nodes, the first
in that order is reported. -/
def printable (a : Arena) (id : NodeId) : Except Fault Tree :=
  a.printableWithin a.depthBound id

/-- The source text of a node: of the whole program for a root that is a statement list. -/
def sourceOf (a : Arena) (id : NodeId) : Except Fault String := do
  let t ← a.printable id
  pure (if a.root = some id ∧ t.label.isStmtList then t.programText else t.text)

def source (a : Arena) : Except Fault String :=
  match a.root with
  | some root => a.sourceOf root
  | none => .ok ""

def outlineOf (a : Arena) (id : NodeId) : Except Fault String :=
  (a.tree id).map Tree.outline

/-- A node met on a walk, with the slots that lead to it from where the walk began. -/
structure Visit where
  path : List Nat
  id : NodeId
  cell : Cell

/-- The nodes under a node in preorder, down to a depth; `back` is the path to it, reversed. -/
def preorderWithin (a : Arena) : Nat → List Nat → NodeId → Except Fault (List Visit)
  | 0, _, id => .error (.endless id)
  | fuel + 1, back, id => do
    let c ← a.cell id
    let below ← c.used.zipIdx.mapM fun (slot, index) =>
      match slot with
      | some child => preorderWithin a fuel (index :: back) child
      | none => pure []
    pure (⟨back.reverse, id, c⟩ :: below.flatten)

def preorder (a : Arena) (id : NodeId) : Except Fault (List Visit) :=
  a.preorderWithin a.depthBound [] id

def lines (a : Arena) (id : NodeId) : Except Fault (List Nat) :=
  (a.preorder id).map fun visits => visits.map fun v => v.cell.line

def unwrapWithin (a : Arena) : Nat → NodeId → Except Fault NodeId
  | 0, id => .error (.endless id)
  | fuel + 1, id => do
    let c ← a.cell id
    match c.label, c.slots with
    | .list .stmtList, [some only] => unwrapWithin a fuel only
    | _, _ => pure id

/-- The statement inside statement lists with exactly one statement. -/
def unwrapSingle (a : Arena) (id : NodeId) : Except Fault NodeId :=
  a.unwrapWithin a.depthBound id

end Arena

end SnippetRewrite
