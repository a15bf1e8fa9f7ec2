import SnippetRewrite.Syntax.Tree

/-!
Induction on the nodes of a tree, the number of its nodes, and whether all of them have the children
that their kinds ask for.
-/

namespace SnippetRewrite

/-- Capture points are treated apart from all other nodes. -/
theorem Label.capture_or (label : Label) :
    (∃ name, label = .capture name) ∨ ∀ name, label ≠ .capture name := by
  cases label <;> simp

/-! ### Source order -/

section

/-- The last two of four child slots exchanged. -/
def swapLast {α : Type} : List α → List α
  | [i, j, k, m] => [i, j, m, k]
  | slots => slots

variable {α β : Type}

theorem swapLast_perm (xs : List α) : (swapLast xs).Perm xs := by
  unfold swapLast
  split
  · rename_i i j k m
    exact ((List.Perm.swap k m []).cons j).cons i
  · exact .refl _

@[simp] theorem swapLast_swapLast (xs : List α) : swapLast (swapLast xs) = xs := by
  rcases xs with _ | ⟨i, _ | ⟨j, _ | ⟨k, _ | ⟨m, _ | ⟨n, rest⟩⟩⟩⟩⟩ <;> rfl

theorem swapLast_map (f : α → β) (xs : List α) : swapLast (xs.map f) = (swapLast xs).map f := by
  rcases xs with _ | ⟨i, _ | ⟨j, _ | ⟨k, _ | ⟨m, _ | ⟨n, rest⟩⟩⟩⟩⟩ <;> rfl

/-- A visit in source order is one from left to right, at most with the last two slots exchanged. -/
theorem Label.inSourceOrder_or {m : Type → Type} [Monad m] [LawfulMonad m] (label : Label)
    (visit : α → m β) (xs : List (Option α)) :
    label.inSourceOrder visit xs = xs.mapM (Option.mapM visit) ∨
      label.inSourceOrder visit xs =
        (do let ys ← (swapLast xs).mapM (Option.mapM visit); pure (swapLast ys)) := by
  unfold Label.inSourceOrder
  split
  · right
    simp [List.mapM_cons, swapLast]
  · exact .inl rfl

end

namespace Tree

/-- Induction on the nodes: what holds of all children holds of their parent. -/
theorem induct {P : Tree → Prop}
    (node : ∀ line label slots, (∀ t, some t ∈ slots → P t) → P (node line label slots))
    (t : Tree) : P t := by
  refine @Tree.rec P (fun slots => ∀ t, some t ∈ slots → P t) (fun o => ∀ t, o = some t → P t)
    (fun line label slots ih => ?_) ?_ ?_ ?_ ?_ t
  · exact node line label slots ih
  · intro t ht
    simp at ht
  · intro o rest ho hrest t ht
    rcases List.mem_cons.mp ht with h | h
    · exact ho t h.symm
    · exact hrest t h
  · intro t ht
    simp at ht
  · intro u hu t ht
    cases ht
    exact hu

@[simp] theorem children_list (kind : ListKind) (items : List Tree) (line : Nat) :
    (list kind items line).children = items := by
  simp [list, children, slots]

/-! ### Size -/

def sizeIn (slots : List (Option Tree)) : Nat :=
  ((slots.map (Option.map size)).map (·.getD 0)).foldl (· + ·) 0

theorem size_node (line : Nat) (label : Label) (slots : List (Option Tree)) :
    (node line label slots).size = 1 + sizeIn slots :=
  fold_node _ line label slots

@[simp] theorem sizeIn_nil : sizeIn [] = 0 := rfl

theorem foldl_add (xs : List Nat) (k : Nat) : xs.foldl (· + ·) k = k + xs.foldl (· + ·) 0 := by
  induction xs generalizing k with
  | nil => rfl
  | cons x xs ih =>
      simp only [List.foldl_cons]
      rw [ih, ih (0 + x)]
      omega

@[simp] theorem sizeIn_none (rest : List (Option Tree)) : sizeIn (none :: rest) = sizeIn rest := rfl

@[simp] theorem sizeIn_some (t : Tree) (rest : List (Option Tree)) :
    sizeIn (some t :: rest) = t.size + sizeIn rest := by
  simp only [sizeIn, List.map_cons, List.foldl_cons, Option.map_some, Option.getD_some]
  rw [foldl_add, Nat.zero_add]

theorem size_pos (t : Tree) : 0 < t.size := by
  cases t
  rw [size_node]
  omega

theorem size_le_sizeIn {slots : List (Option Tree)} {t : Tree} (h : some t ∈ slots) :
    t.size ≤ sizeIn slots := by
  induction slots with
  | nil => simp at h
  | cons o rest ih =>
      rcases List.mem_cons.mp h with rfl | h
      · rw [sizeIn_some]
        exact Nat.le_add_right _ _
      · refine Nat.le_trans (ih h) ?_
        cases o with
        | none => exact Nat.le_refl _
        | some u =>
            rw [sizeIn_some]
            exact Nat.le_add_left _ _

/-! ### Shape -/

/-- Whether each node has as many child slots as its kind asks for. -/
def hasShape (t : Tree) : Bool :=
  t.fold fun _ label slots =>
    slots.all (·.getD true) && label.arity?.all fun n => decide (slots.length = n)

theorem hasShape_node {line : Nat} {label : Label} {slots : List (Option Tree)} :
    (node line label slots).hasShape = true ↔
      (∀ t, some t ∈ slots → t.hasShape = true) ∧
        ∀ n, label.arity? = some n → slots.length = n := by
  rw [hasShape, fold_node, Bool.and_eq_true, List.all_map]
  refine and_congr ?_ ?_
  · rw [List.all_eq_true]
    constructor
    · exact fun h t ht => h (some t) ht
    · intro h o ho
      cases o with
      | none => rfl
      | some t => exact h t ho
  · cases label.arity? <;> simp

end Tree

end SnippetRewrite
