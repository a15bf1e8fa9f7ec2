import SnippetRewrite.Syntax.Tree

/-!
The arena that owns the nodes of one unit. A node lives in a numbered slot and refers to its
children by number. Released slots are kept in a stack and used again, the last released first.

An operation may fail because a node would get a shape that its kind does not allow, or because it
reads a slot that holds no node. What it did before the failure stays done.
-/

namespace SnippetRewrite

/-- The number of a slot of an arena. -/
abbrev NodeId := Nat

def NodeId.text (id : NodeId) : String :=
  "n" ++ toString id

/-- A node as stored: nodes with a fixed number of children have four slots, of which their kind
uses the first few; leaves have none. -/
structure Cell where
  line : Nat
  label : Label
  slots : List (Option NodeId)
deriving DecidableEq, Repr, Inhabited

namespace Cell

def childCount (c : Cell) : Nat :=
  c.label.arity?.getD c.slots.length

def used (c : Cell) : List (Option NodeId) :=
  c.slots.take c.childCount

def spare (c : Cell) : List (Option NodeId) :=
  c.slots.drop c.childCount

def children (c : Cell) : List NodeId :=
  c.used.filterMap id

/-- The child in a slot; none for an empty slot or one that is not in use. -/
def child? (c : Cell) (index : Nat) : Option NodeId :=
  c.used[index]?.join

/-- The cell of a node with the given children, filled up to the slots that its kind stores. -/
def ofSlots (line : Nat) (label : Label) (slots : List (Option NodeId)) : Cell :=
  match label with
  | .fixed _ | .decl _ _ _ =>
    ⟨line, label, slots ++ List.replicate (maxArity - slots.length) none⟩
  | _ => ⟨line, label, slots⟩

end Cell

/-- A node whose shape disagrees with its kind. -/
inductive ShapeViolation where
  | arity (kind : NodeKind) (expected actual : Nat)
  | noSuchSlot (kind : NodeKind) (index : Nat)
  | emptyListSlot (kind : NodeKind)
  | unboundCapture (name : String)
  | dangling (id : NodeId)
deriving DecidableEq, Repr

def notLive (id : NodeId) : String :=
  "node " ++ id.text ++ " is not live in this arena"

namespace ShapeViolation

def message : ShapeViolation → String
  | arity kind expected actual =>
    kind.text ++ " expects " ++ toString expected ++ " children, got " ++ toString actual
  | noSuchSlot kind index => kind.text ++ " has no child slot " ++ toString index
  | emptyListSlot kind => "list node " ++ kind.text ++ " cannot hold an empty slot"
  | unboundCapture name => "capture `" ++ name ++ "` has no binding"
  | dangling id => notLive id

end ShapeViolation

/-- A broken arena: a slot that is read holds no node, or a node is its own descendant. -/
inductive Fault where
  | dead (id : NodeId)
  | endless (id : NodeId)
deriving DecidableEq, Repr

def Fault.message : Fault → String
  | dead id => notLive id
  | endless id => "node " ++ id.text ++ " contains itself"

inductive ArenaError where
  | shape (violation : ShapeViolation)
  | fault (fault : Fault)
deriving DecidableEq, Repr

/-- The nodes of a unit, with the label of the text they came from. -/
structure Arena where
  origin : String
  cells : Array (Option Cell)
  free : List NodeId
  root : Option NodeId
deriving DecidableEq, Repr, Inhabited

/-- An operation on an arena; a failure keeps the changes made before it. -/
abbrev Edit (α : Type) := EStateM ArenaError Arena α

namespace Arena

def empty (origin : String) : Arena :=
  ⟨origin, #[], [], none⟩

def cell? (a : Arena) (id : NodeId) : Option Cell :=
  a.cells[id]?.join

def contains (a : Arena) (id : NodeId) : Bool :=
  (a.cell? id).isSome

def liveCount (a : Arena) : Nat :=
  a.cells.size - a.free.length

def cell (a : Arena) (id : NodeId) : Except Fault Cell :=
  match a.cell? id with
  | some c => .ok c
  | none => .error (.dead id)

def line (a : Arena) (id : NodeId) : Except Fault Nat :=
  (a.cell id).map Cell.line

def put (a : Arena) (id : NodeId) (c : Option Cell) : Arena :=
  { a with cells := a.cells.setIfInBounds id c }

def vacate (a : Arena) (id : NodeId) : Arena :=
  { a with cells := a.cells.setIfInBounds id none, free := id :: a.free }

/-- Enough steps for a walk down any path of an arena in which no node contains itself. -/
def depthBound (a : Arena) : Nat :=
  a.cells.size + 1

end Arena

namespace Edit

def ofRead {α : Type} (read : Arena → Except Fault α) : Edit α := fun a =>
  match read a with
  | .ok x => .ok x a
  | .error f => .error (.fault f) a

def cell (id : NodeId) : Edit Cell :=
  ofRead fun a => a.cell id

def refuse {α : Type} (violation : ShapeViolation) : Edit α :=
  throw (.shape violation)

/-- Stores a node in the slot released last, or in a new one. -/
def alloc (c : Cell) : Edit NodeId := fun a =>
  match a.free with
  | id :: free => .ok id { a.put id (some c) with free := free }
  | [] => .ok a.cells.size { a with cells := a.cells.push (some c) }

def leaf (kind : LeafKind) (value : Value) (line : Nat) : Edit NodeId :=
  alloc ⟨line, .leaf kind value, []⟩

def literal (value : Value) (line : Nat) : Edit NodeId :=
  leaf .literal value line

def name (text : String) (line : Nat) : Edit NodeId :=
  leaf .name (.str text) line

def capture (name : String) (line : Nat) : Edit NodeId :=
  alloc ⟨line, .capture name, []⟩

def list (kind : ListKind) (items : List NodeId) (line : Nat) : Edit NodeId :=
  alloc ⟨line, .list kind, items.map some⟩

def shaped (label : Label) (arity : Nat) (slots : List (Option NodeId)) (line : Nat) :
    Edit NodeId :=
  if slots.length = arity then alloc (Cell.ofSlots line label slots)
  else refuse (.arity label.kind arity slots.length)

def fixed (kind : FixedKind) (slots : List (Option NodeId)) (line : Nat) : Edit NodeId :=
  shaped (.fixed kind) kind.arity slots line

def decl (kind : DeclKind) (name : String) (flags : Nat) (slots : List (Option NodeId))
    (line : Nat) : Edit NodeId :=
  shaped (.decl kind name flags) kind.arity slots line

/-- Stores a variable: its name, and the node around it. -/
def var (text : String) (line : Nat) : Edit NodeId := do
  let id ← name text line
  alloc (Cell.ofSlots line (.fixed .var) [some id])

def setRoot (id : NodeId) : Edit Unit :=
  modify fun a => { a with root := some id }

def setChild (id : NodeId) (index : Nat) (child : Option NodeId) : Edit Unit := do
  match (← get).cell? id with
  | none => refuse (.dangling id)
  | some c =>
    if c.childCount ≤ index then refuse (.noSuchSlot c.label.kind index)
    else
      match c.label, child with
      | .list _, none => refuse (.emptyListSlot c.label.kind)
      | _, _ => modify fun a => a.put id (some { c with slots := c.slots.set index child })

/-- Overwrites a node, which keeps its line, and answers what it was. -/
def setNode (id : NodeId) (label : Label) (slots : List (Option NodeId)) : Edit Cell := do
  match (← get).cell? id with
  | none => refuse (.dangling id)
  | some c =>
    modify fun a => a.put id (some ⟨c.line, label, slots⟩)
    pure c

def take (id : NodeId) : Edit Cell := do
  match (← get).cell? id with
  | none => refuse (.dangling id)
  | some c =>
    modify fun a => a.vacate id
    pure c

end Edit

namespace Arena

/-- Frees the slot of a node and leaves its children alone. A freed root is no root any more. -/
def releaseShallow (a : Arena) (id : NodeId) : Arena :=
  if a.contains id then
    let a := if a.root = some id then { a with root := none } else a
    a.vacate id
  else a

/-- Frees the slots of a subtree, children before their parent. -/
def releaseWithin : Nat → Arena → NodeId → Arena
  | 0, a, _ => a
  | fuel + 1, a, id =>
    match a.cell? id with
    | none => a
    | some c => (c.children.foldl (releaseWithin fuel) a).releaseShallow id

def release (a : Arena) (id : NodeId) : Arena :=
  a.releaseWithin a.depthBound id

end Arena

namespace Edit

/-- Moves the node in the slot `replacement` into the slot `id`, whose former children are
released. What refers to `id` then refers to the moved node. -/
def replaceWith (id replacement : NodeId) : Edit Unit := do
  if id = replacement then pure ()
  else
    let moved ← take replacement
    let old ← cell id
    modify fun a => old.children.foldl Arena.release a
    if (← get).contains id then modify fun a => a.put id (some moved)
    else refuse (.dangling id)

end Edit

end SnippetRewrite
