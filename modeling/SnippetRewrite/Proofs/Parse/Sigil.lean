import SnippetRewrite.Proofs.Parse.TreePairing
import SnippetRewrite.Proofs.Syntax.Spelled

/-!
Readers with different sigils side by side. The sigil is looked at only where an identifier may begin,
so on a text without the characters in question two grammars do the same step by step, and the names
in what they hand back begin with none of these characters.
-/

namespace SnippetRewrite

def Cursor.Free (bad : Char → Bool) (c : Cursor) : Prop :=
  ∀ ch ∈ c.rest, bad ch = false

/-! ### Trees without certain names -/

namespace Label

/-- Whether a leaf spells a name that begins with a bad character. -/
def beginsBadly (bad : Char → Bool) (label : Label) : Bool :=
  label.nameText?.any fun text => text.toList.head?.any bad

def isCapture : Label → Bool
  | capture _ => true
  | _ => false

end Label

namespace Tree

variable {bad : Char → Bool} {line : Nat} {label : Label} {slots : List (Option Tree)}

/-- No name in the tree begins with a bad character, and there are no capture points. -/
def Clean (bad : Char → Bool) (t : Tree) : Prop :=
  t.anyNode (fun label _ => label.beginsBadly bad || label.isCapture) = false

theorem clean_node : (node line label slots).Clean bad ↔
    (label.beginsBadly bad = false ∧ label.isCapture = false) ∧
      ∀ t, some t ∈ slots → t.Clean bad := by
  rw [Clean, anyNode_eq_false, Bool.or_eq_false_iff]
  rfl

theorem forall_slots {P : Tree → Prop} :
    (∀ t, some t ∈ slots → P t) ↔ ∀ o ∈ slots, ∀ t ∈ o, P t := by
  constructor
  · rintro h o ho t rfl
    exact h t ho
  · exact fun h t ht => h (some t) ht t rfl

@[simp] theorem clean_name {text : String} :
    (name text line).Clean bad ↔ text.toList.head?.any bad = false := by
  rw [name, clean_node]
  simp [Label.beginsBadly, Label.ofName, Label.nameText?, Value.asString?, Label.isCapture]

@[simp] theorem clean_fixed {kind : FixedKind} :
    (fixed kind slots line).Clean bad ↔ ∀ o ∈ slots, ∀ t ∈ o, t.Clean bad := by
  rw [fixed, clean_node, forall_slots]
  simp [Label.beginsBadly, Label.nameText?, Label.isCapture]

@[simp] theorem clean_decl {kind : DeclKind} {name : String} {flags : Nat} :
    (node line (.decl kind name flags) slots).Clean bad ↔ ∀ o ∈ slots, ∀ t ∈ o, t.Clean bad := by
  rw [clean_node, forall_slots]
  simp [Label.beginsBadly, Label.nameText?, Label.isCapture]

@[simp] theorem clean_list {kind : ListKind} {items : List Tree} :
    (list kind items line).Clean bad ↔ ∀ t ∈ items, t.Clean bad := by
  rw [list, clean_node]
  simp [Label.beginsBadly, Label.nameText?, Label.isCapture]

@[simp] theorem clean_literal {value : Value} : (literal value line).Clean bad := by
  rw [literal, clean_node]
  simp [Label.beginsBadly, Label.nameText?, Label.isCapture]

@[simp] theorem clean_var {text : String} :
    (var text line).Clean bad ↔ text.toList.head?.any bad = false := by
  rw [var]
  exact clean_fixed.trans (by simp)

end Tree

/-! ### Two readers -/

/-- Texts without bad characters, and the names in what is read of them. -/
def Following.clean (bad : Char → Bool) : Following where
  Here := Cursor.Free bad
  Word text := text.toList.head?.any bad = false
  Holds t _ := t.Clean bad
  row _ := 0

theorem Following.kept_clean {bad : Char → Bool} (hmark : bad '?' = false) : (clean bad).Kept where
  here h hd := fun ch hch => h ch (hd.suffix.subset hch)
  mark _ := by simpa [clean] using hmark
  row_mono _ := Nat.le_refl _
  holds h _ := h
  row_le _ := Nat.le_refl _
  name h _ := Tree.clean_name.mpr h
  node {line label slots c} hlabel hcapture hslots _ := by
    refine Tree.clean_node.mpr ⟨⟨by simp [Label.beginsBadly, hlabel], ?_⟩,
      Tree.forall_slots.mpr fun o ho t ht => (hslots o ho t ht).1⟩
    cases label <;> first | rfl | exact absurd rfl hcapture

/-- On a text without bad characters two readers of identifiers do the same if they differ in bad
characters only. -/
theorem Reader.identifier_of_free {bad : Char → Bool} {sigil sigil' : Char} {c : Cursor}
    (h : ∀ ch, bad ch = false → isIdentifierStart sigil ch = isIdentifierStart sigil' ch)
    (hc : c.Free bad) :
    (Reader.identifier sigil' : PlainReader String) c = Reader.identifier sigil c ∧
      ∀ text d, (Reader.identifier sigil : PlainReader String) c = .ok (text, d) →
        text.toList.head?.any bad = false := by
  have hskip : c.skip.Free bad := fun ch hch => hc ch (c.reaches_skip.suffix.subset hch)
  have hsame : c.skip.wordHere? (isIdentifierStart sigil') =
      c.skip.wordHere? (isIdentifierStart sigil) := by
    unfold Cursor.wordHere?
    split
    · rfl
    · rename_i first rest hrest
      rw [h first (hskip first (by simp [hrest]))]
  cases hword : c.skip.wordHere? (isIdentifierStart sigil) with
  | none =>
      rw [identifier_of_none hword, identifier_of_none (hsame.trans hword)]
      exact ⟨rfl, fun _ _ h => nomatch h⟩
  | some r =>
      obtain ⟨text, next⟩ := r
      rw [identifier_of_some hword, identifier_of_some (hsame.trans hword)]
      refine ⟨rfl, fun text' d htext => ?_⟩
      split at htext
      · cases htext
      · cases htext
        obtain ⟨first, rest, hrest, -, rfl, -⟩ := wordHere?_eq_some.mp hword
        rw [String.toList_ofList]
        exact hskip first (by simp [hrest])

/-- The grammars of two sigils, as far as these differ in bad characters only. -/
theorem Grammar.sameWords_of_free {bad : Char → Bool} {sigil sigil' : Char} (bound : Nat)
    (h : ∀ ch, bad ch = false → isIdentifierStart sigil ch = isIdentifierStart sigil' ch) :
    SameWords ((Following.clean bad).pairing True 0) sigil sigil' bound where
  identifiers _ c _ hc := by
    obtain ⟨hsame, hword⟩ := Reader.identifier_of_free h hc.1
    exact ⟨fun text d hread => ⟨hsame.trans hread, hword text d hread⟩,
      fun _ _ hread => hsame.trans hread⟩
  lookahead depth bound' depth' _ c _ next hc hword := by
    have hnext : next.Free bad := fun ch hch =>
      hc.1 ch ((Cursor.ahead_of_word? hword).1.suffix.subset hch)
    rw [peekIdentifier, peekIdentifier, sigil_ofDepth, sigil_ofDepth,
      (Reader.identifier_of_free h hnext).1]
    exact .inl rfl

variable {sigil sigil' : Char} {source : List Char} {t : Tree}

theorem readProgram_alike (bad : Char → Bool) (hmark : bad '?' = false)
    (h : ∀ ch, bad ch = false → isIdentifierStart sigil ch = isIdentifierStart sigil' ch)
    (hsource : ∀ ch ∈ source, bad ch = false) :
    readProgram sigil source = readProgram sigil' source ∧
      ∀ t, readProgram sigil source = .ok t → t.Clean bad := by
  have := Following.kept_clean hmark
  obtain ⟨hok, herror⟩ := Grammar.program_of_paired
    (Grammar.sameWords_of_free (source.length + 1) h) hsource (Nat.le_refl _)
  rw [readProgram, readProgram]
  cases hx : (Grammar.ofLength sigil source.length : TreeGrammar).program (Cursor.start source) with
  | error failure =>
      rw [(herror failure hx).2.2 trivial]
      exact ⟨rfl, fun t ht => nomatch ht⟩
  | ok r =>
      obtain ⟨hy, -, hclean, -⟩ := hok r.1 r.2 hx
      rw [hy]
      refine ⟨rfl, ?_⟩
      rintro _ ⟨⟩
      exact hclean

/-- The names in a program begin with characters of its text. -/
theorem clean_of_readProgram {bad : Char → Bool} (hmark : bad '?' = false)
    (hsource : ∀ ch ∈ source, bad ch = false) (h : readProgram sigil source = .ok t) :
    t.Clean bad := by
  have hsame (ch : Char) (_ : bad ch = false) :
      isIdentifierStart sigil ch = isIdentifierStart sigil ch := rfl
  exact (readProgram_alike bad hmark hsame hsource).2 t h

/-- A text without the sigil is read as it is with the default one, which every reader admits. -/
theorem readProgram_eq_default (hmark : sigil ≠ '?') (hsource : sigil ∉ source) :
    readProgram sigil source = readProgram defaultSigil source := by
  have hsame (ch : Char) (hch : (ch == sigil) = false) :
      isIdentifierStart sigil ch = isIdentifierStart defaultSigil ch := by
    have hne : ch ≠ sigil := ne_of_beq_false hch
    have hdefault : isIdentifierStart defaultSigil ch =
        (isWordStart ch || (decide (ch = '$') || decide (ch = '$'))) := Bool.or_assoc _ _ _
    rw [hdefault, Bool.or_self, isIdentifierStart, decide_eq_false hne, Bool.or_false]
  refine (readProgram_alike (· == sigil) (beq_false_of_ne hmark.symm) hsame ?_).1
  intro ch hch
  exact beq_false_of_ne fun heq => hsource (heq ▸ hch)

end SnippetRewrite
