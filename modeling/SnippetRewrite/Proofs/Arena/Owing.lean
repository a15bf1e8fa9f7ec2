import SnippetRewrite.Proofs.Arena.Ownership

/-!
Arenas that are built from the leaves up. Each node that is stored takes the next slot and refers to
nodes that no other node refers to yet; these were owed to a parent, and from then on the new node is.
So at each time a node is either owed or held by exactly one slot of one later node.
-/

namespace SnippetRewrite

/-- What a list holds once stands in one place, whatever is missing around it. -/
theorem existsUnique_getElem? {α : Type} {xs : List (Option α)} {x : α} (hx : some x ∈ xs)
    (h : (xs.filterMap id).Nodup) : ∃! i : Nat, xs[i]? = some (some x) := by
  induction xs with
  | nil => cases hx
  | cons o xs ih =>
      have hrest : (xs.filterMap id).Nodup := h.sublist ((List.sublist_cons_self o xs).filterMap id)
      by_cases hmem : some x ∈ xs
      · obtain ⟨i, hi, hunique⟩ := ih hmem hrest
        refine ⟨i + 1, by simpa using hi, fun j hj => ?_⟩
        cases j with
        | zero =>
            obtain rfl : o = some x := by simpa using hj
            have hnot : x ∉ xs.filterMap id := (List.nodup_cons.mp h).1
            exact (hnot (List.mem_filterMap.mpr ⟨some x, hmem, rfl⟩)).elim
        | succ j => exact congrArg (· + 1) (hunique j (by simpa using hj))
      · obtain rfl : o = some x := ((List.mem_cons.mp hx).resolve_right hmem).symm
        refine ⟨0, rfl, fun j hj => ?_⟩
        cases j with
        | zero => rfl
        | succ j => exact absurd (List.mem_of_getElem? (by simpa using hj)) hmem

namespace Arena

variable {a : Arena} {owed kids : List NodeId} {n : NodeId}

/-- The node that a slot of another node refers to; the slots that its kind does not use count. -/
def held? (a : Arena) (slot : NodeId × Nat) : Option NodeId :=
  (a.cell? slot.1).bind fun c => c.slots[slot.2]?.join

theorem held?_eq_some {slot : NodeId × Nat} : a.held? slot = some n ↔
    ∃ c, a.cell? slot.1 = some c ∧ c.slots[slot.2]? = some (some n) := by
  simp [held?, Option.bind_eq_some_iff, Option.join_eq_some_iff]

/-- All slots hold nodes, each of which comes after its children; the nodes that are owed to a parent
are held by no slot, and all others by exactly one. -/
structure Owing (a : Arena) (owed : List NodeId) : Prop where
  free_nil : a.free = []
  full : ∀ id < a.cells.size, a.contains id
  nodup : owed.Nodup
  lt_size : ∀ id ∈ owed, id < a.cells.size
  unheld : ∀ id ∈ owed, ∀ slot, a.held? slot ≠ some id
  held : ∀ id < a.cells.size, id ∉ owed → ∃! slot, a.held? slot = some id
  lt : ∀ id slot, a.held? slot = some id → id < slot.1

theorem empty_owing (origin : String) : (empty origin).Owing [] where
  free_nil := rfl
  full _ h := absurd h (Nat.not_lt_zero _)
  nodup := .nil
  lt_size := by simp
  unheld := by simp
  held _ h := absurd h (Nat.not_lt_zero _)
  lt _ _ h := by simp [held?, empty, cell?] at h

/-- A slot with a node in it is a slot of a node. -/
theorem lt_size_of_held? {slot : NodeId × Nat} (h : a.held? slot = some n) :
    slot.1 < a.cells.size := by
  obtain ⟨c, hc, -⟩ := held?_eq_some.mp h
  by_contra hle
  simp [cell?, Array.getElem?_eq_none (Nat.le_of_not_lt hle)] at hc

/-! ### One more node -/

section

variable {c : Cell} {slot : NodeId × Nat}

theorem held?_push_last (c : Cell) (i : Nat) :
    held? { a with cells := a.cells.push (some c) } (a.cells.size, i) = some n ↔
      c.slots[i]? = some (some n) := by
  rw [held?, cell?_push, if_pos rfl, Option.bind_some, Option.join_eq_some_iff]

theorem held?_push_of_ne (c : Cell) (hne : slot.1 ≠ a.cells.size) :
    held? { a with cells := a.cells.push (some c) } slot = a.held? slot := by
  rw [held?, cell?_push, if_neg hne]
  rfl

/-- A node is held by the new node, which is made of it, or by the one that held it before. -/
theorem held?_push_cases (hkids : (c.slots.filterMap id).Perm kids)
    (h : held? { a with cells := a.cells.push (some c) } slot = some n) :
    slot.1 = a.cells.size ∧ n ∈ kids ∨ slot.1 ≠ a.cells.size ∧ a.held? slot = some n := by
  obtain ⟨id, i⟩ := slot
  by_cases heq : id = a.cells.size
  · subst heq
    have hi := List.mem_of_getElem? ((held?_push_last c i).mp h)
    exact .inl ⟨rfl, hkids.mem_iff.mp (List.mem_filterMap.mpr ⟨_, hi, rfl⟩)⟩
  · exact .inr ⟨heq, (held?_push_of_ne c heq).symm.trans h⟩

/-- What the new node is made of is held by it alone, since no node has held it before. -/
theorem Owing.held_push_of_mem (h : a.Owing (owed ++ kids)) (hkids : (c.slots.filterMap id).Perm kids)
    (hn : n ∈ kids) : ∃! slot, held? { a with cells := a.cells.push (some c) } slot = some n := by
  have hslots : some n ∈ c.slots := by
    obtain ⟨o, ho, heq⟩ := List.mem_filterMap.mp (hkids.mem_iff.mpr hn)
    exact heq ▸ ho
  have hnodup : (c.slots.filterMap id).Nodup :=
    hkids.nodup_iff.mpr (List.nodup_append'.mp h.nodup).2.1
  obtain ⟨i, hi, hunique⟩ := existsUnique_getElem? hslots hnodup
  refine ⟨(a.cells.size, i), (held?_push_last c i).mpr hi, fun slot hslot => ?_⟩
  rcases held?_push_cases hkids hslot with ⟨heq, -⟩ | ⟨-, hold⟩
  · obtain ⟨id, j⟩ := slot
    subst heq
    exact Prod.ext rfl (hunique j ((held?_push_last c j).mp hslot))
  · exact absurd hold (h.unheld n (List.mem_append_right _ hn) slot)

/-- All other nodes that are held go on to be held where they were. -/
theorem Owing.held_push_of_notMem (h : a.Owing (owed ++ kids))
    (hkids : (c.slots.filterMap id).Perm kids) (hn : n < a.cells.size) (hnot : n ∉ owed ++ kids) :
    ∃! slot, held? { a with cells := a.cells.push (some c) } slot = some n := by
  obtain ⟨slot, hslot, hunique⟩ := h.held n hn hnot
  have hne : slot.1 ≠ a.cells.size := Nat.ne_of_lt (lt_size_of_held? hslot)
  refine ⟨slot, (held?_push_of_ne c hne).trans hslot, fun slot' hslot' => ?_⟩
  rcases held?_push_cases hkids hslot' with ⟨-, hkid⟩ | ⟨-, hold⟩
  · exact absurd (List.mem_append_right _ hkid) hnot
  · exact hunique slot' hold

/-- What is owed behind the step is held by no node: not by the new node, and not by an old one, each of
which comes behind the nodes that it holds. -/
theorem Owing.unheld_push (h : a.Owing (owed ++ kids)) (hkids : (c.slots.filterMap id).Perm kids)
    (hn : n ∈ owed ++ [a.cells.size]) :
    held? { a with cells := a.cells.push (some c) } slot ≠ some n := by
  intro hslot
  rcases held?_push_cases hkids hslot with ⟨-, hkid⟩ | ⟨-, hold⟩
  · have hlt : n < a.cells.size := h.lt_size n (List.mem_append_right _ hkid)
    rcases List.mem_append.mp hn with hn | hn
    · exact (List.nodup_append'.mp h.nodup).2.2 hn hkid
    · exact Nat.ne_of_lt hlt (List.mem_singleton.mp hn)
  · rcases List.mem_append.mp hn with hn | hn
    · exact h.unheld n (List.mem_append_left _ hn) slot hold
    · have hlater := Nat.lt_trans (h.lt n slot hold) (lt_size_of_held? hold)
      exact Nat.ne_of_lt hlater (List.mem_singleton.mp hn)

/-- A new node takes the next slot. It holds the nodes owed last, whatever their order, and is owed in
their place. -/
theorem Owing.push (h : a.Owing (owed ++ kids)) (hkids : (c.slots.filterMap id).Perm kids) :
    Owing { a with cells := a.cells.push (some c) } (owed ++ [a.cells.size]) where
  free_nil := h.free_nil
  full n hn := by
    rw [contains, cell?_push]
    split
    · rfl
    · rename_i hne
      rw [Array.size_push] at hn
      exact h.full n (Nat.lt_of_le_of_ne (Nat.le_of_lt_succ hn) hne)
  nodup := by
    refine List.nodup_append'.mpr ⟨(List.nodup_append'.mp h.nodup).1, List.nodup_singleton _,
      fun n hn hnew => ?_⟩
    have hlt : n < a.cells.size := h.lt_size n (List.mem_append_left _ hn)
    exact Nat.ne_of_lt hlt (List.mem_singleton.mp hnew)
  lt_size n hn := by
    rw [Array.size_push]
    rcases List.mem_append.mp hn with hn | hn
    · exact Nat.lt_succ_of_lt (h.lt_size n (List.mem_append_left _ hn))
    · exact Nat.lt_succ_of_le (Nat.le_of_eq (List.mem_singleton.mp hn))
  unheld _ hn _ := h.unheld_push hkids hn
  held n hn hnot := by
    rw [List.mem_append, List.mem_singleton, not_or] at hnot
    rw [Array.size_push] at hn
    have hlt : n < a.cells.size := Nat.lt_of_le_of_ne (Nat.le_of_lt_succ hn) hnot.2
    by_cases hkid : n ∈ kids
    · exact h.held_push_of_mem hkids hkid
    · exact h.held_push_of_notMem hkids hlt fun hmem =>
        (List.mem_append.mp hmem).elim hnot.1 hkid
  lt n slot hslot := by
    rcases held?_push_cases hkids hslot with ⟨heq, hkid⟩ | ⟨-, hold⟩
    · exact heq ▸ h.lt_size n (List.mem_append_right _ hkid)
    · exact h.lt n slot hold

end

end Arena

end SnippetRewrite
