import SnippetRewrite.Proofs.Arena.Reading

/-!
The nodes of a unit in postorder, children before their parent and from left to right, and the first
of them at which a tree with some property stands.
-/

namespace SnippetRewrite

namespace Placement

mutual

def postorder : Placement → List Placement
  | node id line label slots => postorderIn slots ++ [node id line label slots]

def postorderIn : List (Option Placement) → List Placement
  | [] => []
  | none :: rest => postorderIn rest
  | some l :: rest => l.postorder ++ postorderIn rest

end

theorem postorder_eq (l : Placement) : l.postorder = postorderIn l.slots ++ [l] := by
  cases l
  rfl

theorem postorderIn_append (xs ys : List (Option Placement)) :
    postorderIn (xs ++ ys) = postorderIn xs ++ postorderIn ys := by
  induction xs with
  | nil => rfl
  | cons o rest ih => cases o <;> simp [postorderIn, ih]

theorem mem_postorderIn {slots : List (Option Placement)} {m : Placement} :
    m ∈ postorderIn slots ↔ ∃ l, some l ∈ slots ∧ m ∈ l.postorder := by
  induction slots with
  | nil => simp [postorderIn]
  | cons o rest ih => cases o <;> simp [postorderIn, ih]

theorem flatten_postorder (slots : List (Option Placement)) :
    ((slots.map (Option.map fun l => l.postorder.map Placement.root)).map (·.getD [])).flatten =
      (postorderIn slots).map root := by
  induction slots with
  | nil => rfl
  | cons o rest ih =>
      simp only [List.map_cons, List.flatten_cons, ih]
      cases o <;> simp [postorderIn]

/-- What holds of a tree and is passed on to its children holds of all subtrees. -/
theorem forall_postorder {P : Tree → Prop}
    (hP : ∀ line label slots, P (.node line label slots) → ∀ t, some t ∈ slots → P t)
    {l : Placement} (hl : P l.tree) : ∀ m ∈ l.postorder, P m.tree := by
  induction l using induct with
  | node id line label slots ih =>
      intro m hm
      rcases List.mem_append.mp hm with hm | hm
      · obtain ⟨c, hc, hm⟩ := mem_postorderIn.mp hm
        exact ih c hc (hP _ _ _ hl c.tree (tree_mem_treesIn hc)) m hm
      · rw [List.mem_singleton.mp hm]
        exact hl

/-! ### First subtrees -/

variable {P : Tree → Prop} {l c x : Placement}

/-- The first subtree in postorder that has a property. -/
def First (P : Tree → Prop) (l x : Placement) : Prop :=
  ∃ before after, l.postorder = before ++ x :: after ∧ (∀ y ∈ before, ¬ P y.tree) ∧ P x.tree

theorem First.root (hbelow : ∀ y ∈ postorderIn l.slots, ¬ P y.tree) (hl : P l.tree) : First P l l :=
  ⟨postorderIn l.slots, [], postorder_eq l, hbelow, hl⟩

theorem First.child (k : Layer) (hbefore : ∀ y ∈ postorderIn k.before, ¬ P y.tree)
    (h : First P c x) : First P (k.fill c) x := by
  obtain ⟨before, after, hc, hfirst, hx⟩ := h
  refine ⟨postorderIn k.before ++ before, after ++ (postorderIn k.after ++ [k.fill c]), ?_,
    fun y hy => ?_, hx⟩
  · rw [postorder_eq, Layer.fill, slots, postorderIn_append, postorderIn, hc]
    simp
  · rcases List.mem_append.mp hy with hy | hy
    · exact hbefore y hy
    · exact hfirst y hy

end Placement

namespace Arena

open Placement

variable {a : Arena} {l m : Placement}

/-- The nodes under a node in postorder, down to a depth. -/
def postorderWithin (a : Arena) : Nat → NodeId → Except Fault (List NodeId)
  | 0, id => .error (.endless id)
  | fuel + 1, id => do
    let c ← a.cell id
    let below ← c.used.mapM (Option.mapM (postorderWithin a fuel))
    pure ((below.map (·.getD [])).flatten ++ [id])

def postorder (a : Arena) (id : NodeId) : Except Fault (List NodeId) :=
  a.postorderWithin a.depthBound id

theorem postorderWithin_eq (h : a.Holds l) {fuel : Nat} (hdepth : l.depth ≤ fuel) :
    a.postorderWithin fuel l.root = .ok (l.postorder.map Placement.root) := by
  induction fuel generalizing l with
  | zero => exact absurd l.depth_pos (Nat.not_lt_of_le hdepth)
  | succ fuel ih =>
      obtain ⟨c, hc, -, -, -, hused⟩ := h.cell
      have hslots := mapM_idsOf (f := a.postorderWithin fuel) (g := fun m => m.postorder.map Placement.root)
        fun m hm => ih (h.below.holds hm) (depth_le_of_mem hm hdepth)
      simp only [postorderWithin, Arena.cell, hc, hused, hslots, ok_bind, pure_eq_ok,
        flatten_postorder, postorder_eq l, List.map_append, List.map_cons, List.map_nil]

theorem Holds.postorder_eq (h : a.Holds l) : a.postorder l.root = .ok (l.postorder.map Placement.root) :=
  postorderWithin_eq h h.depth_le_depthBound

theorem Holds.of_mem_postorder (h : a.Holds l) (hm : m ∈ l.postorder) : a.Holds m := by
  induction l using induct with
  | node id line label slots ih =>
      rcases List.mem_append.mp hm with hm | hm
      · obtain ⟨c, hc, hm⟩ := mem_postorderIn.mp hm
        exact ih c hc (h.below.holds hc) hm
      · rw [List.mem_singleton.mp hm]
        exact h

end Arena

end SnippetRewrite
