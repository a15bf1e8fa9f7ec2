import SnippetRewrite.Proofs.Arena.Operation

/-!
The root of an arena in use. An operation that frees a node forgets a root that it frees, with one
exception: a replacement takes the node that it moves out of its slot, even if that is the slot of
the root, and leaves the root at the empty slot. Main statement: where only live nodes are made the
root, the root is live after every operation exactly if no replacement moves it.
-/

namespace SnippetRewrite

namespace Arena

variable {a b : Arena}

/-- There is no root, or it is a node. -/
def RootLive (a : Arena) : Prop :=
  ∀ root, a.root = some root → a.contains root

theorem contains_put {id x : NodeId} {c : Cell} (h : a.contains x) :
    (a.put id (some c)).contains x := by
  rw [Arena.contains, cell?_put]
  split
  · rfl
  · exact h

theorem RootLive.alloc {c : Cell} {id : NodeId} (h : a.RootLive) (halloc : Edit.alloc c a = .ok id b) :
    b.RootLive := by
  rw [Edit.alloc] at halloc
  split at halloc
  · cases halloc
    exact fun root hroot => contains_put (h root hroot)
  · cases halloc
    intro root hroot
    obtain ⟨d, hd⟩ := contains_iff.mp (h root hroot)
    have hlt := lt_size_of_cell? hd
    rw [Arena.contains, cell?_push, if_neg (Nat.ne_of_lt hlt)]
    exact h root hroot

theorem RootLive.vacate {id : NodeId} (h : a.RootLive) (hne : a.root ≠ some id) :
    (a.vacate id).RootLive := by
  refine fun root hroot => contains_vacate.mpr ⟨h root hroot, ?_⟩
  rintro rfl
  exact hne hroot

theorem RootLive.releaseShallow (h : a.RootLive) (id : NodeId) : (a.releaseShallow id).RootLive := by
  rw [Arena.releaseShallow]
  split
  · dsimp only
    split
    · intro root hroot
      cases hroot
    · rename_i hne
      exact h.vacate hne
  · exact h

/-- An operation keeps the root live if it neither makes a slot without a node the root nor moves
the root by a replacement. -/
theorem RootLive.apply (h : a.RootLive) (op : Operation)
    (hset : ∀ id, op = .setRoot id → a.contains id)
    (hmove : ∀ id replacement, op = .replaceWith id replacement → id ≠ replacement →
      a.root ≠ some replacement) : (op.apply a).RootLive := by
  refine op.apply_keeps h (fun _ _ _ _ _ _ hb halloc => hb.alloc halloc)
    (fun c hb _ root hroot => contains_put (hb root hroot)) (fun id hb => hb.releaseShallow id)
    (fun id replacement hop hne _ => h.vacate (hmove id replacement hop hne)) ?_
  intro id hop root hroot
  cases hroot
  exact hset id hop

/-- A replacement that moves the root leaves it at a slot without a node. -/
theorem RootLive.not_rootLive_replaceWith {id root : NodeId} (h : a.RootLive)
    (hroot : a.root = some root) (hne : id ≠ root) :
    ¬ ((Operation.replaceWith id root).apply a).RootLive := by
  have hdangles : ((Operation.replaceWith id root).apply a).root = some root ∧
      ¬ ((Operation.replaceWith id root).apply a).contains root := by
    refine Edit.replaceWith_keeps (P := fun b => b.root = some root ∧ ¬ b.contains root) hne
      (h root hroot) ⟨hroot, fun hroot => (contains_vacate.mp hroot).2 rfl⟩ (fun {b} x hb => ?_)
      (fun c hb hlive => ⟨hb.1, fun hroot => hb.2 ((contains_put_iff hlive).mp hroot)⟩)
    -- the slot of the root is empty, so what is freed is another node
    rw [Arena.releaseShallow]
    split
    · rename_i hlive
      have hx : x ≠ root := by
        rintro rfl
        exact hb.2 hlive
      rw [if_neg (by simpa [hb.1] using hx.symm)]
      exact ⟨hb.1, fun hroot => hb.2 (contains_vacate.mp hroot).1⟩
    · exact hb
  exact fun hlive => hdangles.2 (hlive root hdangles.1)

/-! ### Sequences of operations -/

theorem perform_take_succ {ops : List Operation} {k : Nat} {op : Operation} (a : Arena)
    (h : ops[k]? = some op) : a.perform (ops.take (k + 1)) = op.apply (a.perform (ops.take k)) := by
  simp [perform, List.take_add_one, h]

theorem perform_take_of_none {ops : List Operation} {k : Nat} (a : Arena) (h : ops[k]? = none) :
    a.perform (ops.take (k + 1)) = a.perform (ops.take k) := by
  simp [perform, List.take_add_one, h]

/-- Where only live nodes are made the root, the root is missing or live after each operation
exactly if no replacement moves the root of that moment into another slot. -/
theorem perform_rootLive_iff (origin : String) (ops : List Operation)
    (hset : ∀ k id, ops[k]? = some (.setRoot id) →
      ((empty origin).perform (ops.take k)).contains id) :
    (∀ k, ((empty origin).perform (ops.take k)).RootLive) ↔
      ∀ k id replacement, ops[k]? = some (.replaceWith id replacement) → id ≠ replacement →
        ((empty origin).perform (ops.take k)).root ≠ some replacement := by
  constructor
  · intro h k id replacement hop hne hroot
    -- the root would dangle one operation later
    have hnext := h (k + 1)
    rw [perform_take_succ _ hop] at hnext
    exact (h k).not_rootLive_replaceWith hroot hne hnext
  · intro h k
    induction k with
    | zero =>
        intro root hroot
        cases hroot
    | succ k ih =>
        cases hop : ops[k]? with
        | none =>
            rw [perform_take_of_none _ hop]
            exact ih
        | some op =>
            rw [perform_take_succ _ hop]
            refine ih.apply op (fun id hid => hset k id (hid ▸ hop)) ?_
            intro id replacement hid hne
            exact h k id replacement (hid ▸ hop) hne

/-- A variable becomes the root, its name is replaced by another name, and the variable is freed. -/
def rootFreed : List Operation :=
  [.store (.var "x" 1), .setRoot 1, .store (.name "y" 1), .replaceWith 0 2, .release 1,
    .store (.name "z" 1)]

/-- The node that is moved is not the root, which is live up to the end and then forgotten. -/
theorem rootFreed_rootLive :
    (∀ k, ((empty "unit").perform (rootFreed.take k)).RootLive) ∧
    ((empty "unit").perform (rootFreed.take 4)).root = some 1 ∧
    ((empty "unit").perform rootFreed).root = none := by
  refine ⟨(perform_rootLive_iff "unit" rootFreed ?_).mpr ?_, by decide +kernel, by decide +kernel⟩
  · intro k id hop
    rcases k with _ | _ | _ | _ | _ | _ | k <;> simp [rootFreed] at hop
    subst hop
    decide +kernel
  · intro k id replacement hop hne
    rcases k with _ | _ | _ | _ | _ | _ | k <;> simp [rootFreed] at hop
    obtain ⟨rfl, rfl⟩ := hop
    decide +kernel

/-- Two names, of which the first is the root and then replaces the second. -/
def rootMoved : List Operation :=
  [.store (.name "x" 1), .store (.name "y" 1), .setRoot 0, .replaceWith 1 0]

/-- Only a live node is made the root, and yet the root is no node in the end. -/
theorem rootMoved_dangles :
    (∀ k id, rootMoved[k]? = some (.setRoot id) →
      ((empty "unit").perform (rootMoved.take k)).contains id) ∧
    ((empty "unit").perform rootMoved).root = some 0 ∧
    ¬ ((empty "unit").perform rootMoved).contains 0 := by
  refine ⟨fun k id hop => ?_, by decide +kernel, by decide +kernel⟩
  rcases k with _ | _ | _ | _ | k <;> simp [rootMoved] at hop
  subst hop
  decide +kernel

end Arena

end SnippetRewrite
