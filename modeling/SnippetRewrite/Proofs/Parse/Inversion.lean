import SnippetRewrite.Proofs.Parse.Parts
import SnippetRewrite.Proofs.Parse.Token

/-!
What has been read where a reader succeeds: an identifier is a word that is no keyword, a reference is
an identifier, and a program is its statements between the tags, with nothing behind them.
-/

namespace SnippetRewrite

/-- The cursor at the next token, or behind a tag if that comes next. -/
def Cursor.pastTag (tag : String) (c : Cursor) : Cursor :=
  (c.skip.past? tag.toList).getD c.skip

namespace Grammar

open Reader

variable {g : TreeGrammar}

/-! ### Identifiers -/

theorem identifier_ok {c d : Cursor} {text : String} (h : g.identifier c = .ok (text, d)) :
    c.skip.wordHere? (isIdentifierStart g.sigil) = some (text, d) := by
  rw [Grammar.identifier] at h
  cases hword : c.skip.wordHere? (isIdentifierStart g.sigil) with
  | none =>
      rw [identifier_of_none hword] at h
      cases h
  | some r =>
      rw [identifier_of_some hword] at h
      split at h
      · cases h
      · cases h
        rfl

theorem isName_of_identifier {c d : Cursor} {text : String} (h : g.identifier c = .ok (text, d)) :
    IsName g.sigil text := by
  have hword := identifier_ok h
  obtain ⟨first, rest, -, hfirst, htext, -⟩ := wordHere?_eq_some.mp hword
  rw [Grammar.identifier, identifier_of_some hword] at h
  split at h
  · cases h
  · rename_i hkeyword
    refine ⟨⟨first, rest.takeWhile isWordChar, ?_, hfirst, fun c hc => ?_⟩, by simpa using hkeyword⟩
    · rw [← htext, String.toList_ofList]
    · exact List.all_eq_true.mp List.all_takeWhile c hc

theorem reference_ok {line : Nat} {c d : Cursor} {t : Tree} (h : g.reference line c = .ok (t, d)) :
    ∃ text, g.identifier c = .ok (text, d) ∧
      t = if (d.pastSymbol? "(").isSome then .name text line else .var text line := by
  rw [reference, get_bind_apply] at h
  cases hid : (Reader.identifier g.sigil : PlainReader String) c with
  | error _ =>
      rw [hid] at h
      cases h
  | ok r =>
      simp only [hid, set_bind_apply] at h
      obtain ⟨called, e, hpeek, h⟩ := of_bind_ok h
      cases hpeek
      refine ⟨r.1, ?_⟩
      by_cases hcalled : (r.2.pastSymbol? "(").isSome
      · rw [if_pos hcalled] at h
        cases h
        exact ⟨hid, (if_pos hcalled).symm⟩
      · rw [if_neg hcalled] at h
        cases h
        exact ⟨hid, (if_neg hcalled).symm⟩

/-! ### Programs -/

theorem optionalTag_apply (tag : String) (c : Cursor) :
    (optionalTag tag : PlainReader Unit) c = .ok ((), c.pastTag tag) := rfl

/-- A program is its statements between the tags, and reads its text to the end. -/
theorem program_ok {c d : Cursor} {t : Tree} (h : g.program c = .ok (t, d)) :
    ∃ statements stop, t = .list .stmtList statements 1 ∧
      g.programStatementsWithin g.bound (c.pastTag "<?php") = .ok (statements, stop) ∧
      d = (stop.pastTag "?>").skip ∧ d.rest = [] := by
  rw [program, bind_ok (optionalTag_apply _ _)] at h
  obtain ⟨statements, stop, hstatements, h⟩ := of_bind_ok h
  rw [bind_ok (optionalTag_apply _ _), modify_bind_apply, get_bind_apply] at h
  cases hrest : (stop.pastTag "?>").skip.rest with
  | nil =>
      rw [hrest] at h
      cases h
      exact ⟨statements, stop, rfl, hstatements, rfl, hrest⟩
  | cons first rest =>
      rw [hrest] at h
      cases h

end Grammar

theorem program_of_readProgram {sigil : Char} {source : List Char} {t : Tree}
    (h : readProgram sigil source = .ok t) :
    ∃ d, (Grammar.ofLength sigil source.length : TreeGrammar).program (Cursor.start source) =
      .ok (t, d) := by
  rw [readProgram] at h
  cases hread : (Grammar.ofLength sigil source.length : TreeGrammar).program (Cursor.start source) with
  | error _ =>
      rw [hread] at h
      cases h
  | ok r =>
      rw [hread] at h
      cases h
      exact ⟨r.2, rfl⟩

theorem readProgram_of_toOption {sigil : Char} {source : List Char} {t : Tree}
    (h : (readProgram sigil source).toOption = some t) : readProgram sigil source = .ok t := by
  cases hread : readProgram sigil source <;> simp_all [Except.toOption]

end SnippetRewrite
