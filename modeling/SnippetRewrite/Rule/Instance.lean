import SnippetRewrite.Arena.Copy
import SnippetRewrite.Rule.Match

/-!
Instances of templates. A template is built in the arena of the unit, children before their parent;
its own nodes take one line, and each capture point becomes a copy of the subtree bound to it, with
the lines of that subtree.
-/

namespace SnippetRewrite

namespace Edit

/-- Stores a node with any label; the number of its children must be that of its kind. -/
def node (line : Nat) (label : Label) (slots : List (Option NodeId)) : Edit NodeId :=
  match label with
  | .fixed kind => fixed kind slots line
  | .decl kind name flags => decl kind name flags slots line
  | _ => alloc ⟨line, label, slots⟩

end Edit

namespace Template

mutual

def build (b : Bindings) (line : Nat) : Tree → Edit NodeId
  | .node _ (.capture name) _ =>
    match b.get? name with
    | some id => Edit.deepCopy id
    | none => Edit.refuse (.unboundCapture name)
  | .node _ (.leaf kind value) _ => Edit.leaf kind value line
  | .node _ label slots => do Edit.node line label (← buildSlots b line slots)

def buildSlots (b : Bindings) (line : Nat) : List (Option Tree) → Edit (List (Option NodeId))
  | [] => pure []
  | none :: rest => do pure (none :: (← buildSlots b line rest))
  | some t :: rest => do
    let id ← build b line t
    pure (some id :: (← buildSlots b line rest))

end

def instantiate (t : Template) (b : Bindings) (line : Nat) : Edit NodeId :=
  build b line t.tree

end Template

end SnippetRewrite
