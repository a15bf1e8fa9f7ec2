import SnippetRewrite.Proofs.Arena.Unfolding
import SnippetRewrite.Proofs.Rule.FreshInstance

/-!
Copies of subtrees within an arena and from one arena into another. A copy is the new tree of an
arena that is otherwise as it was, and it has all that the original shows when it is read as a tree:
labels, lines, empty child slots and the order of the children. Comparing it with the original
answers yes except for a tree with a NaN in it, which is not equal to itself either. The subtree may
share nodes with others or within itself; the copy has a node for each place.
-/

namespace SnippetRewrite

open Placement

variable {a b other : Arena} {es : List Entry} {l m : Placement}

namespace Edit

theorem importWithin_adds {fuel : Nat} (ha : a.Owns es) (hl : other.Holds l)
    (hdepth : l.depth ≤ fuel) : (importWithin other fuel l.root).Adds a es l.tree := by
  induction fuel generalizing a es l with
  | zero => exact absurd l.depth_pos (Nat.not_lt_of_le hdepth)
  | succ fuel ih =>
      obtain ⟨c, hc, hfits, hline, hlabel, hused⟩ := hl.cell
      have hread : ofRead (fun _ => other.cell l.root) a = .ok c a := by
        simp [ofRead, Arena.cell, hc]
      have hslots := mapM_addsIn ha fun m hm b fs hb _ =>
        ih hb (hl.below.holds hm) (depth_le_of_mem hm hdepth)
      exact bind_adds hread (refill_adds hfits hline hlabel hused hslots)

theorem importFrom_adds (ha : a.Owns es) (hl : other.Holds l) :
    (importFrom other l.root).Adds a es l.tree :=
  importWithin_adds ha hl hl.depth_le_depthBound

/-- A copy compares with its original, in any arena that still has it, as a tree does with itself. -/
theorem Adds.copies {x : Edit NodeId} (h : x.Adds a es m.tree) (ha : a.Owns es)
    (hm : other.Holds m) : ∃ copy b, x a = .ok copy b ∧ a.Gains copy m.tree b ∧
      ∀ s, other.Grown s → b.same copy s m.root = .ok (!m.tree.hasNan) ∧
        s.same m.root b copy = .ok (!m.tree.hasNan) := by
  obtain ⟨copy, b, hx', hgains⟩ := h.gains ha
  obtain ⟨l, c, hx, htree, hc, -⟩ := h
  obtain ⟨rfl, rfl⟩ := EStateM.Result.ok.inj (hx.symm.trans hx')
  refine ⟨l.root, c, hx, hgains, fun s hs => ?_⟩
  have hms := hm.grown hs
  rw [hc.holds.same_eq hms, hms.same_eq hc.holds, htree, Tree.same_self]
  exact ⟨rfl, rfl⟩

/-- Copies are exact, fresh and leave everything else alone. In an arena with an exact free list, let
a node unfold to a tree; its copy is a new tree of the arena, equal to it in labels, lines, empty child
slots and order. So is the copy of a node of another arena. Compared with its original a copy is equal
exactly if there is no NaN in it. -/
theorem copies_gain (hfree : a.FreeExact) (hfits : a.Fits) :
    (∀ id, a.Unfolds id → ∃ t copy b, a.tree id = .ok t ∧ deepCopy id a = .ok copy b ∧
      a.Gains copy t b ∧
      b.same copy b id = .ok (!t.hasNan) ∧ b.same id b copy = .ok (!t.hasNan)) ∧
    ∀ other id, other.Fits → other.Unfolds id →
      ∃ t copy b, other.tree id = .ok t ∧ importFrom other id a = .ok copy b ∧ a.Gains copy t b ∧
        b.same copy other id = .ok (!t.hasNan) ∧ other.same id b copy = .ok (!t.hasNan) := by
  have howns := Arena.owns_nodeEntries hfree hfits
  refine ⟨fun id hid => ?_, fun other id hother hid => ?_⟩
  · obtain ⟨l, hl, rfl⟩ := (Arena.unfolds_iff hfits).mp hid
    obtain ⟨copy, b, hx, hgains, hsame⟩ := (deepCopy_adds howns hl).copies howns hl
    exact ⟨l.tree, copy, b, hl.tree_eq, hx, hgains, hsame b hgains.kept⟩
  · obtain ⟨l, hl, rfl⟩ := (Arena.unfolds_iff hother).mp hid
    obtain ⟨copy, b, hx, hgains, hsame⟩ := (importFrom_adds howns hl).copies howns hl
    exact ⟨l.tree, copy, b, hl.tree_eq, hx, hgains, hsame other (.refl other)⟩

/-- The call `f()` without its root, whose slot is free. -/
def openCall : Arena :=
  Template.callUnit.releaseShallow 2

theorem openCall_wellFormed : openCall.FreeExact ∧ openCall.Fits := by
  obtain ⟨hunit, -⟩ := Template.callUnit_treeShaped
  have hlive : Template.callUnit.contains 2 := by decide +kernel
  have hroot : Template.callUnit.root = some 2 := hunit.root_eq
  rw [openCall, Arena.releaseShallow, if_pos hlive, if_pos hroot]
  refine ⟨(hunit.free.withRoot none).vacate hlive, fun id c hc => ?_⟩
  rw [Arena.cell?_vacate] at hc
  split at hc
  · cases hc
  · exact hunit.fits id c hc

/-- A name copied within that arena, and the whole call brought back into it. -/
theorem copies_gain_recycled : 2 ∈ openCall.free ∧
    (∃ copy b, deepCopy 0 openCall = .ok copy b ∧ openCall.Gains copy (.name "f" 1) b ∧
      b.same copy b 0 = .ok true) ∧
    ∃ copy b, importFrom Template.callUnit 2 openCall = .ok copy b ∧
      openCall.Gains copy Matcher.callTree b ∧ b.same copy Template.callUnit 2 = .ok true := by
  obtain ⟨hfree, hfits⟩ := openCall_wellFormed
  obtain ⟨hunit, htree⟩ := Template.callUnit_treeShaped
  obtain ⟨hcopies, himports⟩ := copies_gain hfree hfits
  have hname : openCall.tree 0 = .ok (.name "f" 1) := by decide +kernel
  obtain ⟨t, copy, b, ht, hx, hgains, hsame, -⟩ := hcopies 0 (Arena.unfolds_of_tree hfits hname)
  cases hname.symm.trans ht
  obtain ⟨t, copy', b', ht, hx', hgains', hsame', -⟩ :=
    himports Template.callUnit 2 hunit.fits (Arena.unfolds_of_tree hunit.fits htree)
  cases htree.symm.trans ht
  exact ⟨by decide +kernel, ⟨copy, b, hx, hgains, hsame⟩, copy', b', hx', hgains', hsame'⟩

end Edit

end SnippetRewrite
