import SnippetRewrite.Syntax.Kind
import SnippetRewrite.Syntax.Value

/-!
Syntax trees. A node has a line, a label that says what it is, and child slots, of which some may
be empty. Structural equality ignores lines.
-/

namespace SnippetRewrite

/-- What a node is, apart from its line and its children. -/
inductive Label where
  | leaf (kind : LeafKind) (value : Value)
  | fixed (kind : FixedKind)
  | list (kind : ListKind)
  | decl (kind : DeclKind) (name : String) (flags : Nat)
  | capture (name : String)
deriving DecidableEq, Repr, Inhabited

namespace Label

def kind : Label → NodeKind
  | leaf kind _ => .leaf kind
  | fixed kind => .fixed kind
  | list kind => .list kind
  | decl kind _ _ => .decl kind
  | capture _ => .capture

def ofName (text : String) : Label :=
  .leaf .name (.str text)

def nameText? : Label → Option String
  | leaf .name value => value.asString?
  | _ => none

/-- The number of child slots, for lists a free choice. -/
def arity? : Label → Option Nat
  | leaf _ _ | capture _ => some 0
  | fixed kind => some kind.arity
  | decl kind _ _ => some kind.arity
  | list _ => none

/-- Equality of labels, numeric on floats. -/
def same : Label → Label → Bool
  | leaf k v, leaf l w => k == l && v.same w
  | fixed k, fixed l => k == l
  | list k, list l => k == l
  | decl k n f, decl l m g => k == l && n == m && f == g
  | capture n, capture m => n == m
  | _, _ => false

def isStmtList : Label → Bool
  | list .stmtList => true
  | _ => false

/-- Visits child slots in the order in which they stand in source text: the return type of a
function, written before its body, precedes it. -/
def inSourceOrder {m : Type → Type} [Monad m] {α β : Type} (label : Label) (visit : α → m β)
    (slots : List (Option α)) : m (List (Option β)) :=
  match label, slots with
  | .decl _ _ _, [params, uses, body, result] => do
    let params ← params.mapM visit
    let uses ← uses.mapM visit
    let result ← result.mapM visit
    let body ← body.mapM visit
    pure [params, uses, body, result]
  | _, slots => slots.mapM (Option.mapM visit)

end Label

inductive Tree where
  | node (line : Nat) (label : Label) (slots : List (Option Tree))
deriving Repr, Inhabited

namespace Tree

def line : Tree → Nat
  | node line _ _ => line

def label : Tree → Label
  | node _ label _ => label

def slots : Tree → List (Option Tree)
  | node _ _ slots => slots

def children (t : Tree) : List Tree :=
  t.slots.filterMap id

def name (text : String) (line : Nat) : Tree :=
  .node line (.ofName text) []

/-- A variable, which holds its name as a child. -/
def var (text : String) (line : Nat) : Tree :=
  .node line (.fixed .var) [some (name text line)]

def literal (value : Value) (line : Nat) : Tree :=
  .node line (.leaf .literal value) []

def fixed (kind : FixedKind) (slots : List (Option Tree)) (line : Nat) : Tree :=
  .node line (.fixed kind) slots

def list (kind : ListKind) (items : List Tree) (line : Nat) : Tree :=
  .node line (.list kind) (items.map some)

mutual

/-- Computes a result bottom-up: each node from its line, its label and its children's results. -/
def fold {α : Type} (f : Nat → Label → List (Option α) → α) : Tree → α
  | node line label slots => f line label (foldSlots f slots)

def foldSlots {α : Type} (f : Nat → Label → List (Option α) → α) :
    List (Option Tree) → List (Option α)
  | [] => []
  | none :: rest => none :: foldSlots f rest
  | some t :: rest => some (fold f t) :: foldSlots f rest

end

theorem foldSlots_eq_map {α : Type} (f : Nat → Label → List (Option α) → α)
    (slots : List (Option Tree)) : foldSlots f slots = slots.map (Option.map (fold f)) := by
  induction slots with
  | nil => rfl
  | cons o rest ih => cases o <;> simp [foldSlots, ih]

theorem fold_node {α : Type} (f : Nat → Label → List (Option α) → α) (line : Nat) (label : Label)
    (slots : List (Option Tree)) :
    fold f (.node line label slots) = f line label (slots.map (Option.map (fold f))) := by
  rw [fold, foldSlots_eq_map]

def size (t : Tree) : Nat :=
  t.fold fun _ _ sizes => 1 + (sizes.map (·.getD 0)).foldl (· + ·) 0

mutual

/-- Structural equality: equal labels and equal children, at whatever lines. -/
def same : Tree → Tree → Bool
  | node _ a xs, node _ b ys => a.same b && sameSlots xs ys

def sameSlots : List (Option Tree) → List (Option Tree) → Bool
  | [], [] => true
  | none :: xs, none :: ys => sameSlots xs ys
  | some x :: xs, some y :: ys => same x y && sameSlots xs ys
  | _, _ => false

end

mutual

/-- Identity of trees as data, lines included. -/
def identical : Tree → Tree → Bool
  | node m a xs, node n b ys => decide (m = n ∧ a = b) && identicalSlots xs ys

def identicalSlots : List (Option Tree) → List (Option Tree) → Bool
  | [], [] => true
  | none :: xs, none :: ys => identicalSlots xs ys
  | some x :: xs, some y :: ys => identical x y && identicalSlots xs ys
  | _, _ => false

end

mutual

theorem identical_iff : (t u : Tree) → (identical t u = true ↔ t = u)
  | node m a xs, node n b ys => by simp [identical, identicalSlots_iff xs ys, and_assoc]

theorem identicalSlots_iff :
    (xs ys : List (Option Tree)) → (identicalSlots xs ys = true ↔ xs = ys)
  | [], ys => by cases ys <;> simp [identicalSlots]
  | none :: xs, ys => by
    cases ys with
    | nil => simp [identicalSlots]
    | cons y ys => cases y <;> simp [identicalSlots, identicalSlots_iff xs ys]
  | some x :: xs, ys => by
    cases ys with
    | nil => simp [identicalSlots]
    | cons y ys =>
      cases y with
      | none => simp [identicalSlots]
      | some y => simp [identicalSlots, identical_iff x y, identicalSlots_iff xs ys]

end

instance : DecidableEq Tree := fun t u => decidable_of_iff _ (identical_iff t u)

end Tree

end SnippetRewrite
