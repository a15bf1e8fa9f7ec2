import SnippetRewrite.Parse.Unit
import SnippetRewrite.Proofs.Parse.TreePairing

/-!
The lines of a program. The tree of a program has lines between that of the place where reading it
began and that of the place where it ended, and no node stands on a later line than one of its
children. The line of a node is that of its first token, that of its left operand, or, for lists inside
a declaration, that of the declaration, so each of them is known before the children are read.
-/

namespace SnippetRewrite

namespace Tree

/-- The lines of a tree lie between two bounds, and no node stands on a later line than one of its
children. -/
inductive LinesWithin : Nat → Nat → Tree → Prop
  | node {low high line : Nat} {label : Label} {slots : List (Option Tree)} (hlow : low ≤ line)
      (hhigh : line ≤ high) (hslots : ∀ o ∈ slots, ∀ t ∈ o, LinesWithin line high t) :
      LinesWithin low high (.node line label slots)

namespace LinesWithin

variable {low low' high high' : Nat} {t : Tree}

theorem widen (h : t.LinesWithin low high) (hlow : low' ≤ low) (hhigh : high ≤ high') :
    t.LinesWithin low' high' := by
  induction h generalizing low' with
  | node hl hh _ ih =>
      exact .node (Nat.le_trans hlow hl) (Nat.le_trans hh hhigh) fun o ho t ht =>
        ih o ho t ht (Nat.le_refl _) hhigh

theorem line_ge (h : t.LinesWithin low high) : low ≤ t.line := by
  cases h
  assumption

theorem line_le (h : t.LinesWithin low high) : t.line ≤ high := by
  cases h
  assumption

/-- A tree begins on the line of its root. -/
theorem from_line (h : t.LinesWithin low high) : t.LinesWithin t.line high := by
  cases h with
  | node _ hhigh hslots => exact .node (Nat.le_refl _) hhigh hslots

end LinesWithin

end Tree

/-- Trees with lines in order, which end before the cursor does. -/
def Following.lines : Following where
  Here _ := True
  Word _ := True
  Holds t c := t.LinesWithin t.line c.position.line
  row line := line

instance : Following.lines.Kept where
  here _ _ := trivial
  mark _ := trivial
  row_mono h := h
  holds h hd := h.widen (Nat.le_refl _) hd.line_le
  row_le h := h.line_le
  name _ hline := .node (Nat.le_refl _) hline (by simp)
  node _ _ hslots hline := .node (Nat.le_refl _) hline fun o ho t ht =>
    (hslots o ho t ht).1.widen (hslots o ho t ht).2 (Nat.le_refl _)

/-- Reading a program ends in the text, and what is read has lines in order, from the first line of
the text on. -/
theorem program_ends (sigil : Char) (source : List Char) :
    (∀ t d, (Grammar.ofLength sigil source.length : TreeGrammar).program (Cursor.start source) =
        .ok (t, d) → (Cursor.start source).Reaches d ∧ t.LinesWithin 1 d.position.line) ∧
    ∀ failure, (Grammar.ofLength sigil source.length : TreeGrammar).program (Cursor.start source) =
        .error failure → (Cursor.start source).Reaches failure.place := by
  have hwords : Grammar.SameWords (Following.lines.pairing True 0) sigil sigil (source.length + 1) :=
    .same fun _ => trivial
  obtain ⟨hok, herror⟩ := Grammar.program_of_paired hwords trivial (Nat.le_refl _)
  refine ⟨fun t d h => ?_, fun failure h => (herror failure h).1⟩
  obtain ⟨-, hd, hlines, hline⟩ := hok t d h
  exact ⟨hd, hlines.widen hline (Nat.le_refl _)⟩

end SnippetRewrite
