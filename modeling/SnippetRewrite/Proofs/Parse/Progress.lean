import SnippetRewrite.Proofs.Parse.Token

/-!
Cursors move forward. The place behind a token is some characters further on in the same text, so that
both the line and the column there are those of the text in between; and a token takes at least one
character, whatever separators, comments and broken comments stand in front of it.
-/

namespace SnippetRewrite

namespace Cursor

variable {c d e : Cursor} {symbol word text : String}

/-- The second cursor stands in the same text, some characters further. -/
def Reaches (c d : Cursor) : Prop :=
  ∃ n, d = c.advance n

theorem advance_nil (n : Nat) (p : Position) : advance n ⟨[], p⟩ = ⟨[], p⟩ := by
  cases n <;> rfl

theorem advance_advance (m n : Nat) (c : Cursor) : (c.advance m).advance n = c.advance (m + n) := by
  fun_induction advance m c with
  | case1 => rw [Nat.zero_add]
  | case2 => rw [advance_nil, advance_nil]
  | case3 m _ _ _ ih => rw [ih, Nat.succ_add, advance]

theorem Reaches.refl (c : Cursor) : c.Reaches c :=
  ⟨0, rfl⟩

theorem Reaches.trans (h : c.Reaches d) (h' : d.Reaches e) : c.Reaches e := by
  obtain ⟨m, rfl⟩ := h
  obtain ⟨n, rfl⟩ := h'
  exact ⟨m + n, advance_advance m n c⟩

theorem reaches_advance (n : Nat) (c : Cursor) : c.Reaches (c.advance n) :=
  ⟨n, rfl⟩

theorem Reaches.cons {p : Position} {ch : Char} {cs : List Char} (h : Reaches ⟨cs, p.past ch⟩ d) :
    Reaches ⟨ch :: cs, p⟩ d := by
  obtain ⟨n, rfl⟩ := h
  exact ⟨n + 1, rfl⟩

theorem line_le_advance (n : Nat) (c : Cursor) : c.position.line ≤ (c.advance n).position.line := by
  fun_induction advance n c with
  | case1 | case2 => exact Nat.le_refl _
  | case3 n ch rest p ih =>
      refine Nat.le_trans ?_ ih
      show p.line ≤ (p.past ch).line
      unfold Position.past
      split
      · exact Nat.le_succ _
      · exact Nat.le_refl _

theorem Reaches.line_le (h : c.Reaches d) : c.position.line ≤ d.position.line := by
  obtain ⟨n, rfl⟩ := h
  exact line_le_advance n c

/-! ### Tokens -/

theorem reaches_skipTrivia (m : Trivia) (p : Position) (cs : List Char) :
    Reaches ⟨cs, p⟩ (skipTrivia m p cs) := by
  fun_induction skipTrivia m p cs with
  | case1 | case4 | case7 => exact .refl _
  | case2 _ _ ih | case3 _ _ _ ih | case9 _ _ ih => exact ih.cons.cons
  | case5 _ _ _ _ _ _ ih | case6 _ _ _ _ _ ih | case8 _ _ _ ih | case10 _ _ _ _ ih =>
      exact ih.cons

theorem reaches_skip (c : Cursor) : c.Reaches c.skip :=
  reaches_skipTrivia .between c.position c.rest

theorem reaches_past? {start : List Char} (h : c.past? start = some d) : c.Reaches d := by
  unfold past? at h
  split at h
  · cases h
    exact reaches_advance _ c
  · cases h

theorem reaches_symbol? (h : c.symbol? = some (symbol, d)) : c.skip.Reaches d := by
  obtain ⟨⟨start, s⟩, -, hfound⟩ := List.exists_of_findSome?_eq_some h
  obtain ⟨next, hnext, heq⟩ := Option.map_eq_some_iff.mp hfound
  cases heq
  exact reaches_past? hnext

theorem reaches_wordHere? {isStart : Char → Bool} (h : c.wordHere? isStart = some (text, d)) :
    c.Reaches d := by
  obtain ⟨first, rest, -, -, -, rfl⟩ := wordHere?_eq_some.mp h
  exact reaches_advance _ c

theorem reaches_readQuoted {quote : Char} {done cs read : List Char} {p : Position}
    (h : readQuoted quote done p cs = some (read, d)) : Reaches ⟨cs, p⟩ d := by
  fun_induction readQuoted quote done p cs with
  | case1 | case3 => cases h
  | case2 | case4 =>
      cases h
      exact (Reaches.refl _).cons
  | case5 _ _ _ _ _ ih => exact (ih h).cons.cons
  | case6 _ _ _ _ _ _ _ ih => exact (ih h).cons

/-! ### What is left of the text -/

theorem Reaches.suffix (h : c.Reaches d) : d.rest <:+ c.rest := by
  obtain ⟨n, rfl⟩ := h
  rw [rest_advance]
  exact List.drop_suffix n c.rest

theorem Reaches.length_le (h : c.Reaches d) : d.rest.length ≤ c.rest.length :=
  h.suffix.length_le

theorem length_skip_le (c : Cursor) : c.skip.rest.length ≤ c.rest.length :=
  c.reaches_skip.length_le

theorem length_advance_lt {n : Nat} (hn : 0 < n) (hc : c.rest ≠ []) :
    (c.advance n).rest.length < c.rest.length := by
  have := List.length_pos_iff.mpr hc
  rw [rest_advance, List.length_drop]
  omega

theorem ahead_of_symbol? (h : c.symbol? = some (symbol, d)) :
    c.Reaches d ∧ d.rest.length < c.rest.length := by
  refine ⟨c.reaches_skip.trans (reaches_symbol? h), ?_⟩
  obtain ⟨hmem, hrest⟩ := mem_symbols_of_symbol? h
  have hnonempty : ∀ s ∈ symbols, 0 < s.toList.length := by decide
  have := hnonempty symbol hmem
  have := c.length_skip_le
  rw [hrest, List.length_append] at this
  omega

theorem ahead_of_wordHere? {isStart : Char → Bool} (h : c.skip.wordHere? isStart = some (text, d)) :
    c.Reaches d ∧ d.rest.length < c.rest.length := by
  refine ⟨c.reaches_skip.trans (reaches_wordHere? h), Nat.lt_of_lt_of_le ?_ c.length_skip_le⟩
  obtain ⟨first, rest, hrest, -, -, rfl⟩ := wordHere?_eq_some.mp h
  exact length_advance_lt (Nat.succ_pos _) (by simp [hrest])

theorem ahead_of_word? (h : c.word? = some (word, d)) :
    c.Reaches d ∧ d.rest.length < c.rest.length :=
  ahead_of_wordHere? h

theorem ahead_of_identifier {sigil : Char}
    (h : (Reader.identifier sigil : PlainReader String) c = .ok (text, d)) :
    c.Reaches d ∧ d.rest.length < c.rest.length := by
  cases hword : c.skip.wordHere? (isIdentifierStart sigil) with
  | none =>
      rw [Reader.identifier_of_none hword] at h
      cases h
  | some r =>
      rw [Reader.identifier_of_some hword] at h
      split at h
      · cases h
      · cases h
        exact ahead_of_wordHere? hword

/-- An identifier that is not one is refused where it is looked for. -/
theorem place_of_identifier {sigil : Char} {failure : SyntaxFailure}
    (h : (Reader.identifier sigil : PlainReader String) c = .error failure) :
    c.Reaches failure.place ∧ failure.cause ≠ .nesting := by
  cases hword : c.skip.wordHere? (isIdentifierStart sigil) with
  | none =>
      rw [Reader.identifier_of_none hword] at h
      cases h
      exact ⟨c.reaches_skip, by simp⟩
  | some r =>
      rw [Reader.identifier_of_some hword] at h
      split at h
      · cases h
        exact ⟨.refl c, by simp⟩
      · cases h

end Cursor

end SnippetRewrite
