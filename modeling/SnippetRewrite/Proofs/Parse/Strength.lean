import Mathlib.Tactic.IntervalCases
import SnippetRewrite.Parse.Statement
import SnippetRewrite.Proofs.Parse.Atom

/-!
Where expressions end. A symbol behind an expression binds to it with some strength; a reader of
expressions that bind at least so tightly stops in front of whatever binds more loosely. The readers
of the grammar are lined up by strength, and those that loop over operators are cut into what comes
in front of the loop and the loop itself.
-/

namespace SnippetRewrite

/-! ### The strength of a symbol -/

/-- Symbols that join what follows to the expression in front of them. -/
def suffixSymbols : List String := ["(", "[", "->", "++", "--"]

/-- How tightly a symbol binds to the expression in front of it. -/
def symbolStrength (symbol : String) : Nat :=
  if symbol ∈ suffixSymbols then Strength.postfixed
  else if symbol = "?" then Strength.conditional
  else
    match BinaryOp.ofSymbol? symbol with
    | some op => op.strength
    | none => if (assignmentOperator? symbol).isSome then Strength.assignment else Strength.loosest

variable {symbol : String} {kind : FixedKind} {op : BinaryOp} {ℓ m : Nat}

theorem BinaryOp.symbol_of_ofSymbol? (h : BinaryOp.ofSymbol? symbol = some op) :
    op.symbol = symbol := by
  simpa using List.find?_some h

theorem symbolStrength_symbol (op : BinaryOp) : symbolStrength op.symbol = op.strength := by
  cases op <;> decide

theorem symbolStrength_of_suffix? {g : TreeGrammar} {inner : Tree} {line : Nat}
    {r : PlainReader Tree} (h : g.suffix? symbol inner line = some r) : symbolStrength symbol = Strength.postfixed := by
  unfold Grammar.suffix? at h
  split at h
  all_goals first
    | rfl
    | cases h

theorem symbolStrength_of_binaryOperator? (h : binaryOperator? ℓ symbol = some op) :
    symbolStrength symbol = ℓ := by
  unfold binaryOperator? at h
  split at h
  · rename_i op' hop
    split at h
    · rename_i hstrength
      rw [← BinaryOp.symbol_of_ofSymbol? hop, symbolStrength_symbol, hstrength.2]
    · cases h
  · cases h

theorem symbolStrength_of_assignmentOperator? (h : assignmentOperator? symbol = some kind) :
    Strength.assignment ≤ symbolStrength symbol := by
  unfold symbolStrength
  split
  · decide
  split
  · decide
  split
  · rename_i op _
    cases op <;> decide
  · simp [h]

theorem symbolStrength_bounds (symbol : String) :
    symbolStrength symbol ≤ Strength.postfixed ∧ symbolStrength symbol ≠ Strength.unary := by
  unfold symbolStrength
  split
  · decide
  split
  · decide
  split
  · rename_i op _
    cases op <;> decide
  · split <;> decide

/-! ### What may follow -/

/-- Texts in front of which an expression that binds at least so tightly ends. -/
structure Ends (ℓ : Nat) (more : List Char) : Prop where
  closed : Closed more
  symbol : ∀ s rest, nextSymbol? more = some (s, rest) → symbolStrength s < ℓ
  word : ∀ rest, nextWord? more = some ("instanceof", rest) → Strength.instanceTest < ℓ

variable {more : List Char}

theorem Ends.mono (h : Ends ℓ more) (hle : ℓ ≤ m) : Ends m more where
  closed := h.closed
  symbol s rest hs := (h.symbol s rest hs).trans_le hle
  word rest hw := (h.word rest hw).trans_le hle

/-- No symbol binds exactly as tightly as an operator before its operand. -/
theorem Ends.unary (h : Ends Strength.power more) : Ends Strength.unary more where
  closed := h.closed
  symbol s rest hs :=
    lt_of_le_of_ne (Nat.le_of_lt_succ (h.symbol s rest hs)) (symbolStrength_bounds s).2
  word _ _ := by decide

theorem Ends.of_symbol {rest : List Char} (hclosed : Closed more)
    (hs : nextSymbol? more = some (symbol, rest)) (h : symbolStrength symbol < ℓ) :
    Ends ℓ more where
  closed := hclosed
  symbol s rest' hs' := by
    rw [hs] at hs'
    cases hs'
    exact h
  word rest' hw := by
    rw [nextWord?_of_symbol hs] at hw
    cases hw

/-- Anything may follow an expression that a suffix can join. -/
theorem Ends.of_closed (h : Closed more) : Ends Strength.primary more where
  closed := h
  symbol s _ _ := Nat.lt_succ_of_le (symbolStrength_bounds s).1
  word _ _ := by decide

/-! ### Readers by strength -/

namespace Grammar

variable {g : TreeGrammar} {c : Cursor} {left : Tree} {fuel : Nat}

def atStrength (g : TreeGrammar) (ℓ : Nat) : PlainReader Tree :=
  if ℓ ≤ Strength.assignment then g.assignment
  else if ℓ = Strength.conditional then g.choice
  else if ℓ ≤ Strength.instanceTest then g.binary (Strength.instanceTest - ℓ)
  else if ℓ = Strength.unary then g.unary
  else if ℓ = Strength.power then g.power
  else if ℓ = Strength.postfixed then g.postfixed
  else g.primary

/-- Strengths at which operators of the same strength follow each other in a loop. -/
def IsLoop (ℓ : Nat) : Prop :=
  Strength.loosestBinary ≤ ℓ ∧ ℓ ≤ Strength.instanceTest ∨ ℓ = Strength.postfixed

instance (ℓ : Nat) : Decidable (IsLoop ℓ) :=
  inferInstanceAs (Decidable (_ ∨ _))

/-- The loop over the operators of one strength, behind their left operand. -/
def loop (g : TreeGrammar) (ℓ fuel : Nat) (left : Tree) : PlainReader Tree :=
  if ℓ = Strength.postfixed then g.suffixesWithin fuel left
  else if ℓ = Strength.instanceTest then g.instanceTestsWithin fuel left
  else binaryTailWithin (g.atStrength (ℓ + 1)) ℓ fuel left

theorem atStrength_eq_loop (h : IsLoop ℓ) :
    g.atStrength ℓ = g.atStrength (ℓ + 1) >>= g.loop ℓ g.bound := by
  rcases h with ⟨hlow, hhigh⟩ | rfl
  · change 3 ≤ ℓ at hlow
    change ℓ ≤ 13 at hhigh
    interval_cases ℓ <;> rfl
  · rfl

theorem suffixesWithin_stop (h : Ends Strength.postfixed c.rest) :
    g.suffixesWithin (fuel + 1) left c = .ok (left, c) := by
  rw [suffixesWithin, Reader.get_bind_apply]
  cases hnext : nextSymbol? c.rest with
  | none => simp [symbol?_of_none hnext]
  | some r =>
      obtain ⟨d, hd, -⟩ := symbol?_of_some hnext
      have hlt := h.symbol r.1 r.2 hnext
      cases hsuffix : g.suffix? r.1 left left.line with
      | none => simp [hd, hsuffix]
      | some s => exact absurd (symbolStrength_of_suffix? hsuffix) hlt.ne

theorem binaryTailWithin_stop {operand : PlainReader Tree} (h : Ends ℓ c.rest) :
    binaryTailWithin operand ℓ (fuel + 1) left c = .ok (left, c) := by
  rw [binaryTailWithin, Reader.get_bind_apply]
  cases hnext : nextSymbol? c.rest with
  | none => simp [symbol?_of_none hnext]
  | some r =>
      obtain ⟨d, hd, -⟩ := symbol?_of_some hnext
      have hlt := h.symbol r.1 r.2 hnext
      cases hop : binaryOperator? ℓ r.1 with
      | none => simp [hd, hop]
      | some op => exact absurd (symbolStrength_of_binaryOperator? hop) hlt.ne

theorem instanceTestsWithin_stop (h : Ends Strength.instanceTest c.rest) :
    g.instanceTestsWithin (fuel + 1) left c = .ok (left, c) := by
  have hword : ∀ cs, nextWord? c.rest ≠ some ("instanceof", cs) :=
    fun cs hw => absurd (h.word cs hw) (lt_irrefl _)
  rw [instanceTestsWithin, Reader.bind_ok (Reader.acceptWord_not hword)]
  rfl

/-- A loop ends in front of what binds more loosely. -/
theorem loop_stop (h : Ends ℓ c.rest) : g.loop ℓ (fuel + 1) left c = .ok (left, c) := by
  unfold loop
  split
  · rename_i heq
    exact suffixesWithin_stop (heq ▸ h)
  split
  · rename_i heq
    exact instanceTestsWithin_stop (heq ▸ h)
  · exact binaryTailWithin_stop h

end Grammar

end SnippetRewrite
