import Mathlib.Data.List.Perm.Basic
import Mathlib.Data.List.Nodup
import SnippetRewrite.Arena.Basic
import SnippetRewrite.Proofs.Syntax.Shape

/-!
Trees with the slots of their nodes. A placement says of each node of a tree in which slot of an
arena it lies; flattened, it is a list of entries, one for each node, and a claim about an arena
becomes a claim about the entries that the arena stores. A context is a placement with a subtree
missing: its own entries depend on the slot of the missing subtree and on nothing else below it, so
that a subtree can be exchanged while everything around it stays.
-/

namespace SnippetRewrite

/-- A tree together with the slot that each of its nodes occupies. -/
inductive Placement where
  | node (id : NodeId) (line : Nat) (label : Label) (slots : List (Option Placement))

/-- A node as an arena holds it, apart from the child slots that its kind does not use. -/
structure Entry where
  id : NodeId
  line : Nat
  label : Label
  slots : List (Option NodeId)
deriving DecidableEq, Repr

namespace Placement

def root : Placement → NodeId
  | node id _ _ _ => id

def line : Placement → Nat
  | node _ line _ _ => line

def label : Placement → Label
  | node _ _ label _ => label

def slots : Placement → List (Option Placement)
  | node _ _ _ slots => slots

def moveTo (l : Placement) (id : NodeId) : Placement :=
  node id l.line l.label l.slots

def idsOf (slots : List (Option Placement)) : List (Option NodeId) :=
  slots.map (Option.map root)

def childIds (slots : List (Option Placement)) : List NodeId :=
  (idsOf slots).filterMap id

mutual

def tree : Placement → Tree
  | node _ line label slots => .node line label (treesIn slots)

def treesIn : List (Option Placement) → List (Option Tree)
  | [] => []
  | none :: rest => none :: treesIn rest
  | some l :: rest => some l.tree :: treesIn rest

end

mutual

/-- One entry for each node, in preorder. -/
def entries : Placement → List Entry
  | node id line label slots => ⟨id, line, label, idsOf slots⟩ :: entriesIn slots

def entriesIn : List (Option Placement) → List Entry
  | [] => []
  | none :: rest => entriesIn rest
  | some l :: rest => l.entries ++ entriesIn rest

end

mutual

/-- The number of nodes on the longest path down. -/
def depth : Placement → Nat
  | node _ _ _ slots => depthIn slots + 1

def depthIn : List (Option Placement) → Nat
  | [] => 0
  | none :: rest => depthIn rest
  | some l :: rest => max l.depth (depthIn rest)

end

def ids (l : Placement) : List NodeId :=
  l.entries.map Entry.id

def idsIn (slots : List (Option Placement)) : List NodeId :=
  (entriesIn slots).map Entry.id

/-- Induction on the nodes: what holds of all children holds of their parent. -/
theorem induct {P : Placement → Prop}
    (node : ∀ id line label slots, (∀ l, some l ∈ slots → P l) → P (node id line label slots))
    (l : Placement) : P l := by
  refine @Placement.rec P (fun slots => ∀ l, some l ∈ slots → P l) (fun o => ∀ l, o = some l → P l)
    (fun id line label slots ih => ?_) ?_ ?_ ?_ ?_ l
  · exact node id line label slots ih
  · intro l hl
    simp at hl
  · intro o rest ho hrest l hl
    rcases List.mem_cons.mp hl with h | h
    · exact ho l h.symm
    · exact hrest l h
  · intro l hl
    simp at hl
  · intro m hm l hl
    cases hl
    exact hm

@[simp] theorem idsOf_nil : idsOf [] = [] := rfl

@[simp] theorem idsOf_cons (o : Option Placement) (rest : List (Option Placement)) :
    idsOf (o :: rest) = o.map root :: idsOf rest := rfl

@[simp] theorem idsOf_append (xs ys : List (Option Placement)) :
    idsOf (xs ++ ys) = idsOf xs ++ idsOf ys := by
  simp [idsOf]

@[simp] theorem length_idsOf (slots : List (Option Placement)) :
    (idsOf slots).length = slots.length := by
  simp [idsOf]

@[simp] theorem childIds_nil : childIds [] = [] := rfl

@[simp] theorem childIds_none (rest : List (Option Placement)) :
    childIds (none :: rest) = childIds rest := rfl

@[simp] theorem childIds_some (l : Placement) (rest : List (Option Placement)) :
    childIds (some l :: rest) = l.root :: childIds rest := rfl

theorem treesIn_eq_map (slots : List (Option Placement)) :
    treesIn slots = slots.map (Option.map tree) := by
  induction slots with
  | nil => rfl
  | cons o rest ih => cases o <;> simp [treesIn, ih]

theorem tree_mem_treesIn {slots : List (Option Placement)} {l : Placement} (h : some l ∈ slots) :
    some l.tree ∈ treesIn slots := by
  rw [treesIn_eq_map]
  exact List.mem_map_of_mem (f := Option.map tree) h

theorem exists_of_mem_treesIn {slots : List (Option Placement)} {t : Tree}
    (h : some t ∈ treesIn slots) : ∃ l, some l ∈ slots ∧ l.tree = t := by
  rw [treesIn_eq_map] at h
  obtain ⟨o, ho, heq⟩ := List.mem_map.mp h
  obtain ⟨l, rfl, rfl⟩ := Option.map_eq_some_iff.mp heq
  exact ⟨l, ho, rfl⟩

@[simp] theorem treesIn_append (xs ys : List (Option Placement)) :
    treesIn (xs ++ ys) = treesIn xs ++ treesIn ys := by
  simp [treesIn_eq_map]

@[simp] theorem length_treesIn (slots : List (Option Placement)) :
    (treesIn slots).length = slots.length := by
  simp [treesIn_eq_map]

@[simp] theorem entriesIn_append (xs ys : List (Option Placement)) :
    entriesIn (xs ++ ys) = entriesIn xs ++ entriesIn ys := by
  induction xs with
  | nil => rfl
  | cons o rest ih => cases o <;> simp [entriesIn, ih]

theorem entriesIn_perm {xs ys : List (Option Placement)} (h : xs.Perm ys) :
    (entriesIn xs).Perm (entriesIn ys) := by
  induction h with
  | nil => exact .refl _
  | cons o _ ih =>
      cases o with
      | none => exact ih
      | some l => exact ih.append_left l.entries
  | swap o p rest =>
      cases o with
      | none => cases p <;> exact .refl _
      | some l =>
          cases p with
          | none => exact .refl _
          | some k => exact List.perm_append_comm_assoc _ _ _
  | trans _ _ ih ih' => exact ih.trans ih'

theorem mem_entriesIn {slots : List (Option Placement)} {e : Entry} :
    e ∈ entriesIn slots ↔ ∃ l, some l ∈ slots ∧ e ∈ l.entries := by
  induction slots with
  | nil => simp [entriesIn]
  | cons o rest ih => cases o <;> simp [entriesIn, ih]

theorem depth_le_depthIn {slots : List (Option Placement)} {l : Placement} (h : some l ∈ slots) :
    l.depth ≤ depthIn slots := by
  induction slots with
  | nil => simp at h
  | cons o rest ih =>
      rcases List.mem_cons.mp h with rfl | hrest
      · exact Nat.le_max_left _ _
      · cases o with
        | none => exact ih hrest
        | some m => exact Nat.le_trans (ih hrest) (Nat.le_max_right _ _)

theorem depth_pos (l : Placement) : 0 < l.depth := by
  cases l
  exact Nat.succ_pos _

/-- A walk that may go down far enough for a node may go down far enough for its children. -/
theorem depth_le_of_mem {l m : Placement} {fuel : Nat} (hm : some m ∈ l.slots)
    (hdepth : l.depth ≤ fuel + 1) : m.depth ≤ fuel := by
  obtain ⟨id, line, label, slots⟩ := l
  have hle := depth_le_depthIn hm
  simp only [Placement.slots, depth] at hle hdepth
  omega

@[simp] theorem tree_line (l : Placement) : l.tree.line = l.line := by
  cases l; rfl

@[simp] theorem tree_label (l : Placement) : l.tree.label = l.label := by
  cases l; rfl

@[simp] theorem tree_slots (l : Placement) : l.tree.slots = treesIn l.slots := by
  cases l; rfl

@[simp] theorem tree_moveTo (l : Placement) (id : NodeId) : (l.moveTo id).tree = l.tree := by
  cases l; rfl

@[simp] theorem root_moveTo (l : Placement) (id : NodeId) : (l.moveTo id).root = id := rfl

theorem entries_eq (l : Placement) :
    l.entries = ⟨l.root, l.line, l.label, idsOf l.slots⟩ :: entriesIn l.slots := by
  cases l; rfl

@[simp] theorem ids_node (id : NodeId) (line : Nat) (label : Label)
    (slots : List (Option Placement)) : (node id line label slots).ids = id :: idsIn slots := rfl

theorem root_mem_ids (l : Placement) : l.root ∈ l.ids := by
  cases l; simp [root]

theorem mem_idsIn {slots : List (Option Placement)} {id : NodeId} :
    id ∈ idsIn slots ↔ ∃ l, some l ∈ slots ∧ id ∈ l.ids := by
  simp only [idsIn, ids, List.mem_map, mem_entriesIn]
  constructor
  · rintro ⟨e, ⟨l, hl, he⟩, rfl⟩
    exact ⟨l, hl, e, he, rfl⟩
  · rintro ⟨l, hl, e, he, rfl⟩
    exact ⟨e, ⟨l, hl, he⟩, rfl⟩

theorem exists_of_mem_ids {l : Placement} {id : NodeId} (h : id ∈ l.ids) :
    ∃ m : Placement, m.root = id ∧ m.entries.Sublist l.entries := by
  induction l using induct with
  | node root line label slots ih =>
      rcases List.mem_cons.mp h with rfl | h
      · exact ⟨_, rfl, List.Sublist.refl _⟩
      · obtain ⟨c, hc, hid⟩ := mem_idsIn.mp h
        obtain ⟨m, hm, hsub⟩ := ih c hc hid
        obtain ⟨before, after, rfl⟩ := List.append_of_mem hc
        refine ⟨m, hm, hsub.trans ?_⟩
        simp only [entries, entriesIn_append, entriesIn]
        exact (List.sublist_append_left _ _).trans
          ((List.sublist_append_right _ _).trans (List.sublist_cons_self _ _))

theorem sizeIn_treesIn {slots : List (Option Placement)}
    (h : ∀ l, some l ∈ slots → l.tree.size = l.entries.length) :
    Tree.sizeIn (treesIn slots) = (entriesIn slots).length := by
  induction slots with
  | nil => rfl
  | cons o rest ih =>
      have hrest := ih fun l hl => h l (List.mem_cons_of_mem _ hl)
      cases o with
      | none => exact hrest
      | some l => simp [treesIn, entriesIn, hrest, h l List.mem_cons_self]

theorem size_tree (l : Placement) : l.tree.size = l.entries.length := by
  induction l using induct with
  | node id line label slots ih =>
      rw [tree, Tree.size_node, sizeIn_treesIn ih, entries, List.length_cons, Nat.add_comm]

end Placement

/-- A node with one of its children missing. -/
structure Layer where
  id : NodeId
  line : Nat
  label : Label
  before : List (Option Placement)
  after : List (Option Placement)

def Layer.fill (k : Layer) (l : Placement) : Placement :=
  .node k.id k.line k.label (k.before ++ some l :: k.after)

/-- The nodes around a missing subtree, the innermost first. -/
abbrev Context := List Layer

namespace Context

def fill : Context → Placement → Placement
  | [], l => l
  | k :: ctx, l => fill ctx (k.fill l)

/-- The entries around a missing subtree whose root lies in the slot `hole`. -/
def entries : Context → NodeId → List Entry
  | [], _ => []
  | k :: ctx, hole =>
    ⟨k.id, k.line, k.label, Placement.idsOf k.before ++ some hole :: Placement.idsOf k.after⟩ ::
      (Placement.entriesIn k.before ++ Placement.entriesIn k.after ++ entries ctx k.id)

/-- The slot of the outermost node, if the missing subtree lies in the slot `hole`. -/
def root : Context → NodeId → NodeId
  | [], hole => hole
  | k :: ctx, _ => root ctx k.id

@[simp] theorem root_fill (ctx : Context) (l : Placement) : (ctx.fill l).root = ctx.root l.root := by
  induction ctx generalizing l with
  | nil => rfl
  | cons k ctx ih => exact ih (k.fill l)

/-- A placement is made of the subtree and of what is around it; the latter sees nothing of the
subtree but the slot of its root. -/
theorem entries_fill (ctx : Context) (l : Placement) :
    (ctx.fill l).entries.Perm (l.entries ++ ctx.entries l.root) := by
  induction ctx generalizing l with
  | nil => simp [fill, entries]
  | cons k ctx ih =>
      refine (ih (k.fill l)).trans ?_
      simp only [Layer.fill, Placement.entries, Placement.entriesIn_append, Placement.entriesIn,
        Placement.idsOf_append, Placement.idsOf_cons, Option.map_some, entries, Placement.root,
        List.cons_append, List.append_assoc]
      refine List.Perm.trans ?_ List.perm_middle.symm
      refine List.Perm.cons _ ?_
      exact List.perm_append_comm_assoc _ _ _

end Context

end SnippetRewrite
