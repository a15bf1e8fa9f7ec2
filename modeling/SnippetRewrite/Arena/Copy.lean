import SnippetRewrite.Arena.Basic

/-!
Copies of subtrees, and trees stored in an arena. A copy has nodes of its own; children are stored
before their parent.
-/

namespace SnippetRewrite

namespace Edit

def deepCopyWithin : Nat → NodeId → Edit NodeId
  | 0, id => throw (.fault (.endless id))
  | fuel + 1, id => do
    let c ← cell id
    let slots ← c.used.mapM (Option.mapM (deepCopyWithin fuel))
    alloc { c with slots := slots ++ c.spare }

def deepCopy (id : NodeId) : Edit NodeId := do
  deepCopyWithin (← get).depthBound id

def importWithin (other : Arena) : Nat → NodeId → Edit NodeId
  | 0, id => throw (.fault (.endless id))
  | fuel + 1, id => do
    let c ← ofRead fun _ => other.cell id
    let slots ← c.used.mapM (Option.mapM (importWithin other fuel))
    alloc { c with slots := slots ++ c.spare }

/-- Copies a subtree of another arena. -/
def importFrom (other : Arena) (id : NodeId) : Edit NodeId :=
  importWithin other other.depthBound id

/-- Stores a tree, its nodes in the order in which they end in source text. -/
def plant (t : Tree) : Edit NodeId :=
  t.fold fun line label slots => do
    let slots ← label.inSourceOrder id slots
    alloc (Cell.ofSlots line label slots)

end Edit

namespace Arena

def ofTree (origin : String) (t : Tree) : Arena :=
  match (do Edit.setRoot (← Edit.plant t)) (Arena.empty origin) with
  | .ok _ a => a
  | .error _ a => a

end Arena

end SnippetRewrite
