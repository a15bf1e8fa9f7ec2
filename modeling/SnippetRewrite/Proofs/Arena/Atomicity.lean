import SnippetRewrite.Proofs.Arena.Operation
import SnippetRewrite.Proofs.Arena.Release

/-!
The operations that answer whether their arguments have the right shape. All checks but those of a
replacement come before the first change. A replacement empties the slot of the replacing node first,
reads the node to be replaced, which may be missing, and then releases what is below it, which comes
to no end if something there lies below itself. Main statement: an operation succeeds or is refused
with the arena as it was, unless it is a replacement that goes wrong in one of these two ways.
-/

namespace SnippetRewrite

inductive Fallible where
  | fixed (kind : FixedKind) (slots : List (Option NodeId)) (line : Nat)
  | decl (kind : DeclKind) (text : String) (flags : Nat) (slots : List (Option NodeId)) (line : Nat)
  | setChild (id : NodeId) (index : Nat) (child : Option NodeId)
  | setNode (id : NodeId) (label : Label) (slots : List (Option NodeId))
  | replaceWith (id replacement : NodeId)

variable {a : Arena} {id replacement : NodeId}

/-! ### Edits -/

namespace Edit

variable {α : Type}

/-- The edit succeeds, or it is refused because of a shape and leaves the arena as it was. -/
def Atomic (x : Edit α) (a : Arena) : Prop :=
  (∃ v b, x a = .ok v b) ∨ ∃ violation, x a = .error (.shape violation) a

theorem Atomic.refuse (violation : ShapeViolation) (a : Arena) :
    (refuse violation : Edit α).Atomic a :=
  .inr ⟨violation, rfl⟩

theorem Atomic.get_bind {f : Arena → Edit α} (h : (f a).Atomic a) :
    ((get : Edit Arena) >>= f).Atomic a :=
  h

theorem Atomic.alloc (c : Cell) (a : Arena) : (alloc c).Atomic a := by
  left
  unfold Edit.alloc
  split <;> exact ⟨_, _, rfl⟩

/-- The number of children is checked before a slot is taken for the node. -/
theorem Atomic.shaped (label : Label) (arity : Nat) (slots : List (Option NodeId)) (line : Nat)
    (a : Arena) : (shaped label arity slots line).Atomic a := by
  unfold Edit.shaped
  split
  · exact .alloc _ a
  · exact .refuse _ a

theorem Atomic.setChild (id : NodeId) (index : Nat) (child : Option NodeId) (a : Arena) :
    (setChild id index child).Atomic a := by
  refine Atomic.get_bind ?_
  cases a.cell? id with
  | none => exact .refuse _ a
  | some c =>
      dsimp only
      split
      · exact .refuse _ a
      · split
        · exact .refuse _ a
        · exact .inl ⟨(), _, rfl⟩

theorem Atomic.setNode (id : NodeId) (label : Label) (slots : List (Option NodeId)) (a : Arena) :
    (setNode id label slots).Atomic a := by
  refine Atomic.get_bind ?_
  cases a.cell? id with
  | none => exact .refuse _ a
  | some c => exact .inl ⟨c, _, rfl⟩

theorem replaceWith_self (id : NodeId) (a : Arena) : replaceWith id id a = .ok () a := by
  rw [replaceWith, if_pos rfl, pure_ok]

theorem replaceWith_of_dead_replacement (hne : id ≠ replacement) (h : a.cell? replacement = none) :
    replaceWith id replacement a = .error (.shape (.dangling replacement)) a := by
  have htake : take replacement a = .error (.shape (.dangling replacement)) a := by
    simp only [take, get_bind, h]
    rfl
  rw [replaceWith, if_neg hne, bind_error htake]

/-- A missing node is read after the other node has been taken out of its slot. -/
theorem replaceWith_of_dead {moved : Cell} (hne : id ≠ replacement)
    (hmoved : a.cell? replacement = some moved) (h : a.cell? id = none) :
    replaceWith id replacement a = .error (.fault (.dead id)) (a.vacate replacement) := by
  have hold : (a.vacate replacement).cell? id = none := by
    rw [Arena.cell?_vacate, if_neg hne, h]
  have hread : cell id (a.vacate replacement) =
      .error (.fault (.dead id)) (a.vacate replacement) := by
    simp only [cell, ofRead, Arena.cell, hold]
  rw [replaceWith, if_neg hne, bind_ok (take_ok hmoved), bind_error hread]

end Edit

/-! ### Replacements -/

/-- If a replacement comes to releasing the children of the node to be replaced, which it does in an
arena without the replacing node, this comes to an end. -/
def Arena.ReplacementEnds (a : Arena) (id replacement : NodeId) : Prop :=
  id ≠ replacement → a.contains replacement →
    ∀ c, a.cell? id = some c → ∃ b, (a.vacate replacement).Releases c.children b

open Arena in
theorem Edit.replaceWith_atomic_iff :
    (Edit.replaceWith id replacement).Atomic a ∧ a.ReplacementEnds id replacement ↔
      (id ≠ replacement → a.contains replacement →
        a.contains id ∧ (a.vacate replacement).AcyclicBelow id) := by
  by_cases hne : id = replacement
  · subst hne
    exact iff_of_true ⟨.inl ⟨(), a, replaceWith_self id a⟩, fun hne => absurd rfl hne⟩
      fun hne => absurd rfl hne
  cases hmoved : a.cell? replacement with
  | none =>
      have hdead : ¬ a.contains replacement := by simp [Arena.contains, hmoved]
      have hrefused := replaceWith_of_dead_replacement hne hmoved
      exact iff_of_true ⟨.inr ⟨_, hrefused⟩, fun _ hlive => absurd hlive hdead⟩
        fun _ hlive => absurd hlive hdead
  | some moved =>
      have hlive : a.contains replacement := contains_iff.mpr ⟨moved, hmoved⟩
      cases hc : a.cell? id with
      | none =>
          -- neither an answer nor a refusal
          have hfault := replaceWith_of_dead hne hmoved hc
          refine iff_of_false ?_ fun h => ?_
          · rintro ⟨⟨_, _, hok⟩ | ⟨_, hrefused⟩, -⟩
            · cases hfault.symm.trans hok
            · cases hfault.symm.trans hrefused
          · simpa [Arena.contains, hc] using (h hne hlive).1
      | some c =>
          have hold : (a.vacate replacement).cell? id = some c := by
            rw [cell?_vacate, if_neg hne, hc]
          constructor
          · rintro ⟨-, hends⟩ - -
            exact ⟨contains_iff.mpr ⟨c, hc⟩,
              (acyclicBelow_iff hold).mpr (exists_releases_iff.mp (hends hne hlive c hc))⟩
          · intro h
            have hacyclic := (h hne hlive).2
            obtain ⟨b, -, -, hok⟩ := replaceWith_clears hne hmoved hc hacyclic
            refine ⟨.inl ⟨(), _, hok⟩, fun _ _ d hd => ?_⟩
            cases hc.symm.trans hd
            exact exists_releases_iff.mpr ((acyclicBelow_iff hold).mp hacyclic)

/-! ### All operations -/

namespace Fallible

/-- The operation comes to an end, and it succeeds or is refused with the arena as it was. -/
def Atomic : Fallible → Arena → Prop
  | fixed kind slots line, a => (Edit.fixed kind slots line).Atomic a
  | decl kind text flags slots line, a => (Edit.decl kind text flags slots line).Atomic a
  | setChild id index child, a => (Edit.setChild id index child).Atomic a
  | setNode id label slots, a => (Edit.setNode id label slots).Atomic a
  | replaceWith id replacement, a =>
    (Edit.replaceWith id replacement).Atomic a ∧ a.ReplacementEnds id replacement

/-- An operation with any arguments is atomic, with two exceptions: a replacement of a node that is
missing by one that is there, and a replacement of a node below which, the replacing node being taken
out, something lies below itself. -/
theorem atomic_iff (op : Fallible) (a : Arena) :
    op.Atomic a ↔ ∀ id replacement, op = replaceWith id replacement → id ≠ replacement →
      a.contains replacement → a.contains id ∧ (a.vacate replacement).AcyclicBelow id := by
  cases op with
  | fixed | decl => exact iff_of_true (Edit.Atomic.shaped _ _ _ _ a) (by simp)
  | setChild => exact iff_of_true (Edit.Atomic.setChild _ _ _ a) (by simp)
  | setNode => exact iff_of_true (Edit.Atomic.setNode _ _ _ a) (by simp)
  | replaceWith id replacement =>
      refine Edit.replaceWith_atomic_iff.trans ⟨fun h x y hop => ?_, fun h => h _ _ rfl⟩
      cases hop
      exact h

/-- A name is to replace a node that does not exist: the replacement stops at the missing node, and
the name is gone. A name is to replace a list that is its own item: what is below the list is released
without end. -/
theorem replaceWith_not_atomic :
    (¬ (replaceWith 5 0).Atomic ((Arena.empty "unit").perform [.store (.name "x" 1)]) ∧
      ¬ ((Operation.replaceWith 5 0).apply
        ((Arena.empty "unit").perform [.store (.name "x" 1)])).contains 0) ∧
    ¬ (replaceWith 0 1).Atomic
      ((Arena.empty "unit").perform [.store (.list .stmtList [0] 1), .store (.name "x" 1)]) := by
  refine ⟨⟨?_, by decide +kernel⟩, fun h => ?_⟩
  · rintro ⟨⟨_, _, hok⟩ | ⟨_, hrefused⟩, -⟩
    · cases hok
    · cases hrefused
  · have hacyclic := (Edit.replaceWith_atomic_iff.mp h (by decide) (by decide +kernel)).2
    exact List.cons_ne_nil 0 [] (hacyclic [] [0] 0 rfl rfl)

end Fallible

end SnippetRewrite
