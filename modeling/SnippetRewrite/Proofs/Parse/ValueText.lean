import SnippetRewrite.Proofs.Parse.RoundTrip

/-!
The texts of values as source. A value is written as the expression that builds it: a literal, or a
list of the items of an array. Main statement: the parser reads this expression back, whatever
characters the strings hold and however deep the arrays are nested. Values with a sign are left out,
since a sign is read as an operator, and so are floats, some of which are written as words.
-/

namespace SnippetRewrite

namespace Value

/-- Values without floats and without integers that are negative or exceed 63 bits, down to the items
of arrays. -/
inductive IsUnsigned : Value → Prop
  | plain {v : Value} (h : v.IsPlain) : IsUnsigned v
  | array {items : List Value} (h : ∀ v ∈ items, IsUnsigned v) : IsUnsigned (.array items)

mutual

/-- The expression that builds a value, on the first line. -/
def tree : Value → Tree
  | array items => .list .array (trees items) 1
  | v => .literal v 1

def trees : List Value → List Tree
  | [] => []
  | v :: rest => tree v :: trees rest

end

theorem trees_eq_map (items : List Value) : trees items = items.map tree := by
  induction items with
  | nil => rfl
  | cons v rest ih => rw [trees, ih, List.map_cons]

theorem IsUnsigned.isFormula {v : Value} (h : v.IsUnsigned) : v.tree.IsFormula := by
  induction h with
  | @plain v h =>
      cases v with
      | array => exact h.elim
      | _ => exact .literal h
  | @array items _ ih =>
      rw [tree, trees_eq_map]
      exact .array (List.forall_mem_map.mpr ih)

/-! ### Texts -/

/-- Literals and lists need no parentheses. -/
theorem within_tree (v : Value) (level : Nat) :
    v.tree.within Strength.assignment level = v.tree.charsAt level := by
  have hstrength : v.tree.strength = Strength.primary := by cases v <;> rfl
  rw [Tree.within, hstrength]
  exact if_neg (by decide)

mutual

/-- The text of a value is that of its expression. -/
theorem charsAt_tree : (v : Value) → (level : Nat) → v.tree.charsAt level = v.text.toList
  | array items, level => by
      rw [tree, Tree.charsAt_array, itemsChars_trees items level, text]
      simp
  | null, level | bool _, level | int _, level | float _, level | str _, level =>
      Tree.charsAt_literal _ 1

theorem itemsChars_trees : (items : List Value) → (level : Nat) →
    Tree.itemsChars (trees items) level = (itemsText items).toList
  | [], _ => rfl
  | [v], level => by
      rw [itemsText, ← charsAt_tree v level, ← within_tree]
      simp [Tree.itemsChars, trees, commaSeparated]
  | v :: w :: rest, level => by
      have hrest := itemsChars_trees (w :: rest) level
      rw [itemsText, String.toList_append, String.toList_append, ← hrest, ← charsAt_tree v level,
        ← within_tree]
      simp [Tree.itemsChars, trees, commaSeparated]

end

end Value

/-! ### Units -/

variable {t : Tree}

/-- The text of an expression with a semicolon behind it is a program of one statement. -/
theorem exists_readProgram_statement {text : String} (h : Legible Strength.assignment text.toList t) :
    ∃ u, u.same t = true ∧
      readProgram defaultSigil (text ++ ";").toList = .ok (.list .stmtList [u] 1) := by
  obtain ⟨us, hus, hsame⟩ := readProgram_statementLines (.cons h .nil)
  have hsource : (text ++ ";").toList = statementLines [text.toList] := by
    rw [String.toList_append]
    rfl
  obtain ⟨u, rfl⟩ : ∃ u, us = [u] :=
    List.length_eq_one_iff.mp (by simpa using Tree.length_eq_of_sameSlots hsame)
  exact ⟨u, by simpa [Tree.sameSlots] using hsame, hsource ▸ hus⟩

namespace Arena

/-- The text of a value with a semicolon behind it is parsed as one statement, the expression that
builds the value. -/
theorem parseUnit_valueText {v : Value} (h : v.IsUnsigned) (origin : String) :
    ∃ b stmt t, parseUnit defaultSigil (v.text ++ ";") origin = .ok b ∧ b.IsProgramOf stmt ∧
      b.tree stmt = .ok t ∧ t.same v.tree = true := by
  have hlegible : Legible Strength.assignment v.text.toList v.tree := by
    rw [← Value.charsAt_tree v 0]
    exact h.isFormula.readBack.expression
  obtain ⟨t, hsame, hread⟩ := exists_readProgram_statement hlegible
  obtain ⟨b, stmt, hb, hstmt, -, ht⟩ := exists_parseUnit_statement origin hread
  exact ⟨b, stmt, t, hb, hstmt, ht, hsame⟩

/-- A string that ends in a backslash, beside the largest integer and an array of an array. -/
def nestedValue : Value :=
  .array [.str "it's \"\\n\"\\", .int 9223372036854775807,
    .array [.null, .array [], .bool true, .str "$x\n\x00"]]

example : nestedValue.text =
    "[\"it's \\\"\\\\n\\\"\\\\\", 9223372036854775807, [null, [], true, \"$x\\n\\0\"]]" := by
  decide +kernel

theorem parseUnit_nestedValue :
    nestedValue.IsUnsigned ∧
    ∃ b stmt t, parseUnit defaultSigil (nestedValue.text ++ ";") "unit" = .ok b ∧
      b.IsProgramOf stmt ∧ b.tree stmt = .ok t ∧ t.same nestedValue.tree = true := by
  have hunsigned : nestedValue.IsUnsigned := by
    refine .array (List.forall_mem_cons.mpr ⟨.plain trivial, List.forall_mem_cons.mpr
      ⟨.plain ⟨by decide, by decide⟩, List.forall_mem_singleton.mpr (.array ?_)⟩⟩)
    refine List.forall_mem_cons.mpr ⟨.plain trivial, List.forall_mem_cons.mpr ⟨.array ?_,
      List.forall_mem_cons.mpr ⟨.plain trivial, List.forall_mem_singleton.mpr (.plain trivial)⟩⟩⟩
    exact List.forall_mem_nil _
  exact ⟨hunsigned, parseUnit_valueText hunsigned "unit"⟩

end Arena

end SnippetRewrite
