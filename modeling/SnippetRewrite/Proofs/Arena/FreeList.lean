import SnippetRewrite.Proofs.Arena.Operation

/-!
The free list of an arena in use. Four changes to an arena concern it: a node is stored, overwritten,
taken out or freed, and each of them keeps it exact. Main statement: after every sequence of
operations the free list holds exactly the slots without a node, each once, so that the nodes can be
counted by it, and what is stored next goes to slots that held no node.
-/

namespace SnippetRewrite

namespace Arena

variable {a b : Arena} {ids : List NodeId}

theorem FreeExact.releaseShallow (h : a.FreeExact) (id : NodeId) :
    (a.releaseShallow id).FreeExact := by
  rw [Arena.releaseShallow]
  split
  · rename_i hlive
    dsimp only
    split
    · exact (h.withRoot none).vacate hlive
    · exact h.vacate hlive
  · exact h

theorem FreeExact.alloc {c : Cell} {id : NodeId} (h : a.FreeExact) (halloc : Edit.alloc c a = .ok id b) :
    a.Fills id c b ∧ b.FreeExact := by
  obtain ⟨x, d, hx, hfills, hfree⟩ := Edit.alloc_fills h c
  cases hx.symm.trans halloc
  exact ⟨hfills, hfree⟩

/-- One operation keeps the free list exact. -/
theorem FreeExact.apply (h : a.FreeExact) (op : Operation) : (op.apply a).FreeExact :=
  op.apply_keeps h (fun _ _ _ _ _ _ hb halloc => (hb.alloc halloc).2)
    (fun c hb hlive => hb.put hlive c) (fun id hb => hb.releaseShallow id)
    (fun _ _ _ _ hlive => h.vacate hlive) fun id _ => h.withRoot (some id)

/-- A sequence of operations keeps the free list exact. -/
theorem FreeExact.perform (h : a.FreeExact) (ops : List Operation) : (a.perform ops).FreeExact := by
  induction ops generalizing a with
  | nil => exact h
  | cons op rest ih => exact ih (h.apply op)

/-! ### Counting nodes -/

def occupied (a : Arena) : List NodeId :=
  (List.range a.cells.size).filter a.contains

theorem FreeExact.length_add_occupied (h : a.FreeExact) :
    a.free.length + a.occupied.length = a.cells.size := by
  have hfree : a.free.Perm ((List.range a.cells.size).filter fun id => !a.contains id) := by
    rw [List.perm_ext_iff_of_nodup h.nodup (List.nodup_range.filter _)]
    intro id
    simp [h.mem_iff, Arena.contains]
  calc a.free.length + a.occupied.length
      = a.occupied.length + ((List.range a.cells.size).filter fun id => !a.contains id).length := by
        rw [hfree.length_eq, Nat.add_comm]
    _ = (List.range a.cells.size).length := (List.length_eq_length_filter_add _).symm
    _ = a.cells.size := List.length_range

/-! ### Slots of new nodes -/

/-- Nodes that are stored one after the other lie in different slots, none of which held a node
before, and all nodes from before are as they were. -/
theorem Stored.fresh (h : a.Stored ids b) (hfree : a.FreeExact) :
    ids.Nodup ∧ (∀ id ∈ ids, ¬ a.contains id) ∧ (∀ id, b.contains id ↔ a.contains id ∨ id ∈ ids) ∧
      a.Grown b := by
  induction h with
  | done a => exact ⟨List.nodup_nil, by simp, by simp, .refl a⟩
  | @node a b d ids c id halloc _ ih =>
      obtain ⟨hfills, hbfree⟩ := hfree.alloc halloc
      obtain ⟨hnodup, hdead, hlive, hgrown⟩ := ih hbfree
      -- the first node is live when the others are stored, so none of them gets its slot
      have hstored (x : NodeId) : b.contains x ↔ a.contains x ∨ x = id := by
        by_cases hx : x = id
        · simp [Arena.contains, hfills.cell, hx]
        · simp [Arena.contains, hfills.cell, hx]
      refine ⟨List.nodup_cons.mpr ⟨fun hid => ?_, hnodup⟩, ?_, fun x => ?_,
        hfills.grown.trans hgrown⟩
      · exact hdead id hid ((hstored id).mpr (.inr rfl))
      · intro x hx hxlive
        rcases List.mem_cons.mp hx with rfl | hx
        · simp [Arena.contains, hfills.dead] at hxlive
        · exact hdead x hx ((hstored x).mpr (.inl hxlive))
      · rw [hlive, hstored, List.mem_cons, or_assoc]

/-- What an operation that stores nothing leaves behind was there before. -/
theorem contains_of_apply {op : Operation} (hop : ∀ k, op ≠ .store k) {id : NodeId}
    (h : (op.apply a).contains id) : a.contains id := by
  refine op.apply_keeps (P := fun b => ∀ id, b.contains id → a.contains id) (fun _ hid => hid)
    (fun k hk => absurd hk (hop k)) (fun c hb hlive id hid => hb id ((contains_put_iff hlive).mp hid))
    (fun {b} x hb => ?_) (fun _ _ _ _ _ id hid => (contains_vacate.mp hid).1)
    (fun _ _ _ hid => hid) id h
  rw [Arena.releaseShallow]
  split
  · dsimp only
    split <;> exact fun id hid => hb id (contains_vacate.mp hid).1
  · exact hb

/-! ### The invariant -/

/-- The free list of an arena is in order, and whatever is done next finds it so. -/
structure FreeListSound (a : Arena) : Prop where
  /-- The free list has no duplicates and holds exactly the slots without a node. -/
  exact : a.FreeExact
  /-- The count of nodes is no subtraction that falls short. -/
  free_le : a.free.length ≤ a.cells.size
  liveCount_eq : a.liveCount = a.occupied.length
  /-- New nodes are stored one after the other, each in a slot that held none just before, while all
  other nodes stay as they are; the slot that is answered is that of the last one. -/
  stores : ∀ k : Construction, ∃ ids, a.Stored ids (k.edit.after a) ∧ ids.Nodup ∧
    (∀ id ∈ ids, ¬ a.contains id) ∧ (∀ id, a.contains id → (k.edit.after a).cell? id = a.cell? id) ∧
    ∀ id b, k.edit a = .ok id b → ids.getLast? = some id
  /-- All other operations leave slots without a node alone. -/
  others : ∀ op : Operation, (∀ k, op ≠ .store k) → ∀ id, (op.apply a).contains id → a.contains id

theorem FreeExact.sound (h : a.FreeExact) : a.FreeListSound where
  exact := h
  free_le := by
    have := h.length_add_occupied
    omega
  liveCount_eq := by
    have := h.length_add_occupied
    rw [liveCount]
    omega
  stores k := by
    obtain ⟨ids, hids, hlast⟩ := k.storesLast a
    obtain ⟨hnodup, hdead, -, hgrown⟩ := hids.fresh h
    exact ⟨ids, hids, hnodup, hdead, hgrown.cell, hlast⟩
  others _ hop _ hid := contains_of_apply hop hid

/-- Whatever is done to an arena, with whatever slots and whether it succeeds or not, the free list
holds exactly the slots without a node, and no node is ever stored over another. -/
theorem perform_freeListSound (origin : String) (ops : List Operation) :
    ((empty origin).perform ops).FreeListSound :=
  ((empty_freeExact origin).perform ops).sound

end Arena

end SnippetRewrite
