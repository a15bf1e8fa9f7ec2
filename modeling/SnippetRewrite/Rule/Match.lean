import SnippetRewrite.Arena.Compare
import SnippetRewrite.Arena.View
import SnippetRewrite.Rule.Snippet

/-!
Matching a pattern against a subtree of a unit. A capture point binds the subtree at its place; a
name that occurs again must meet a structurally equal subtree. Statement lists with a single
statement are transparent if the matcher says so, except that a capture point which is written
directly into a slot binds what stands there, list included.
-/

namespace SnippetRewrite

/-- The subtrees bound to capture names, in the order in which they were bound. -/
abbrev Bindings := List (String × NodeId)

namespace Bindings

def get? (b : Bindings) (name : String) : Option NodeId :=
  (b.find? fun entry => entry.1 = name).map (·.2)

def bind (b : Bindings) (name : String) (id : NodeId) : Bindings :=
  b ++ [(name, id)]

end Bindings

/-- Why a pattern has no match: the target differs, or its arena is broken. -/
inductive NoMatch where
  | mismatch
  | fault (fault : Fault)
deriving DecidableEq, Repr

structure Matcher where
  unwrapSingle : Bool := true
deriving DecidableEq, Repr

namespace Matcher

def look {α : Type} (result : Except Fault α) : Except NoMatch α :=
  result.mapError .fault

/-- Whether a pattern node is a statement list that is transparent. -/
def isTransparent (m : Matcher) (label : Label) (slots : List (Option Tree)) : Bool :=
  m.unwrapSingle && label.isStmtList &&
    match slots with
    | [some _] => true
    | _ => false

/-- The node that is compared where `id` stands. -/
def seen (m : Matcher) (a : Arena) (id : NodeId) : Except NoMatch NodeId :=
  if m.unwrapSingle then look (a.unwrapSingle id) else pure id

/-- Binds a capture, or compares with what it is bound to. -/
def bindCapture (a : Arena) (b : Bindings) (name : String) (id : NodeId) :
    Except NoMatch Bindings :=
  match b.get? name with
  | none => .ok (b.bind name id)
  | some bound => do if ← look (a.same bound a id) then pure b else throw .mismatch

mutual

/-- Compares a pattern with the subtree at `id`; `direct` says that the pattern stands in its slot
as written, not inside a transparent list. -/
def matchTree (m : Matcher) (a : Arena) (direct : Bool) :
    Tree → NodeId → Bindings → Except NoMatch Bindings
  | .node _ label slots, id, b =>
    if m.isTransparent label slots then matchOnly m a slots id b
    else
      match label with
      | .capture name => do bindCapture a b name (← if direct then pure id else m.seen a id)
      | label => do
        let c ← look (a.cell (← m.seen a id))
        if label.same c.label ∧ slots.length = c.childCount then matchSlots m a slots c.used b
        else throw .mismatch

/-- Compares the only statement of a transparent list. -/
def matchOnly (m : Matcher) (a : Arena) :
    List (Option Tree) → NodeId → Bindings → Except NoMatch Bindings
  | [some only], id, b => matchTree m a false only id b
  | _, _, _ => .error .mismatch

def matchSlots (m : Matcher) (a : Arena) :
    List (Option Tree) → List (Option NodeId) → Bindings → Except NoMatch Bindings
  | [], [], b => .ok b
  | none :: ps, none :: ts, b => matchSlots m a ps ts b
  | some p :: ps, some t :: ts, b => do matchSlots m a ps ts (← matchTree m a true p t b)
  | _, _, _ => .error .mismatch

end

/-- The bindings under which a pattern matches the subtree at `id`. -/
def run (m : Matcher) (p : Pattern) (a : Arena) (id : NodeId) : Except Fault (Option Bindings) :=
  match m.matchTree a true p.tree id [] with
  | .ok b => .ok (some b)
  | .error .mismatch => .ok none
  | .error (.fault f) => .error f

end Matcher

end SnippetRewrite
