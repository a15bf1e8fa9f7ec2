import SnippetRewrite.Proofs.Parse.Strength
import SnippetRewrite.Proofs.Syntax.Formula

/-!
Texts that are read as expressions. A text that is read as an expression of some strength is read
as the same expression wherever less is required, and between parentheses it is read wherever an
expression may stand.
-/

namespace SnippetRewrite

/-! ### How expressions open -/

/-- Characters that begin an expression with no operator in front of it. -/
def opensTerm (c : Char) : Bool :=
  isWordStart c || c.isDigit || ['$', '"', '(', '['].contains c

/-- Characters of the operators that stand in front of their operand. -/
def signs : List Char := ['!', '-', '+', '~']

/-- Texts that open as expressions that bind at least so tightly do. The keywords among their first
words are that of new objects and, in front of a parenthesis, that of closures. -/
structure Opens (ℓ : Nat) (x : List Char) : Prop where
  first : ∃ c cs, x = c :: cs ∧ (opensTerm c = true ∨ ℓ ≤ Strength.unary ∧ c ∈ signs)
  word : ∀ more, Closed more → ∀ w rest, nextWord? (x ++ more) = some (w, rest) →
    w ∈ keywords → w = "new" ∨ w = "function" ∧ ∃ rest', nextSymbol? rest = some ("(", rest')

variable {ℓ m : Nat} {x y more : List Char} {c : Cursor}

theorem Opens.mono (h : Opens ℓ x) (hle : m ≤ ℓ) : Opens m x where
  first := by
    obtain ⟨c, cs, hx, hc | ⟨hℓ, hc⟩⟩ := h.first
    · exact ⟨c, cs, hx, .inl hc⟩
    · exact ⟨c, cs, hx, .inr ⟨hle.trans hℓ, hc⟩⟩
  word := h.word

theorem Closed.append (h : Closed y) (hy : y ≠ []) (more : List Char) : Closed (y ++ more) := by
  cases y with
  | nil => exact absurd rfl hy
  | cons c cs => exact h

theorem Opens.append (h : Opens ℓ x) (hy : Closed y) (hne : y ≠ []) : Opens ℓ (x ++ y) where
  first := by
    obtain ⟨c, cs, hx, hc⟩ := h.first
    exact ⟨c, cs ++ y, by rw [hx]; rfl, hc⟩
  word more hmore w rest := by
    rw [List.append_assoc]
    exact h.word (y ++ more) (hy.append hne more) w rest

/-- Characters that begin no expression: separators and those that begin a comment, those that end
an expression, and those that make a longer symbol of an operator in front of them. -/
def neverOpening : List Char :=
  [' ', '\t', '\r', '\n', '/', '#', ')', ']', ';', ',', ':', '=', '>', '<', '?', '\x7b']

theorem Opens.first_notMem (h : Opens ℓ x) : ∃ c cs, x = c :: cs ∧ c ∉ neverOpening := by
  obtain ⟨c, cs, hx, hc⟩ := h.first
  refine ⟨c, cs, hx, fun hmem => ?_⟩
  have hnone : ∀ d ∈ neverOpening, ¬(opensTerm d = true ∨ d ∈ signs) :=
    List.all_iff_forall_prop.mp (by decide)
  exact hnone c hmem (hc.imp_right And.right)

theorem startsToken_of_notMem {d : Char} (h : d ∉ neverOpening) : startsToken d = true := by
  refine (startsToken_or d).resolve_right fun hmem => h ?_
  have hsub : ∀ e ∈ [' ', '\t', '\r', '\n', '/', '#'], e ∈ neverOpening :=
    List.all_iff_forall_prop.mp (by decide)
  exact hsub d hmem

theorem Opens.skip (h : Opens ℓ x) (hc : c.rest = x ++ more) : c.skip.rest = x ++ more := by
  obtain ⟨d, cs, rfl, hd⟩ := h.first_notMem
  rw [skip_eq_self hc (startsToken_of_notMem hd), hc]

theorem Opens.skip_separator (h : Opens ℓ x) {d : Char} (hd : isSeparator d = true)
    (hc : c.rest = d :: (x ++ more)) : c.skip.rest = x ++ more := by
  rw [rest_skip, hc, skipped_separator hd, ← rest_skip ⟨x ++ more, c.position⟩, h.skip rfl]

theorem Opens.skip_blank (h : Opens ℓ x) (hc : c.rest = ' ' :: (x ++ more)) :
    c.skip.rest = x ++ more :=
  h.skip_separator rfl hc

/-- An expression does not begin with a symbol that ends one. -/
theorem Opens.not_symbol (h : Opens ℓ x) (hc : c.skip.rest = x ++ more) {symbol : String}
    (hsymbol : ∃ d ∈ neverOpening, symbol.toList.head? = some d) :
    ∀ rest, nextSymbol? c.rest ≠ some (symbol, rest) := by
  intro rest hs
  obtain ⟨d, cs, rfl, hd⟩ := h.first_notMem
  obtain ⟨e, he, hhead⟩ := hsymbol
  have hfirst : symbol.toList.head? = some d := head_nextSymbol? hc hs
  rw [hhead] at hfirst
  cases hfirst
  exact hd he

/-- An expression with no operator in front of it does not begin with one. -/
theorem Opens.not_leading (h : Opens Strength.power x) (hc : c.skip.rest = x ++ more)
    {symbol : String} {rest : List Char} (hs : nextSymbol? c.rest = some (symbol, rest)) :
    leadingOperator? symbol = none := by
  obtain ⟨d, cs, rfl, hd | ⟨hle, -⟩⟩ := h.first
  · have hfirst : symbol.toList.head? = some d := head_nextSymbol? hc hs
    unfold leadingOperator?
    split
    all_goals first
      | rfl
      | cases hfirst
        exact absurd hd (by decide)
  · exact absurd hle (by decide)

/-! ### Reading at a strength -/

/-- A text is read as an expression in front of whatever ends an expression of its strength. -/
def Reads (ℓ : Nat) (x : List Char) (t : Tree) : Prop :=
  ∀ ⦃bound depth : Nat⦄ ⦃c : Cursor⦄ ⦃more : List Char⦄, c.skip.rest = x ++ more → Ends ℓ more →
    x.length ≤ depth → (x ++ more).length < bound →
    ((Grammar.ofDepth defaultSigil bound depth).atStrength ℓ).Takes c more (·.same t = true)

/-- A text is read as the left operand of a loop over operators of a strength. -/
def Joins (ℓ : Nat) (x : List Char) (t : Tree) : Prop :=
  ∀ ⦃bound depth : Nat⦄ ⦃c : Cursor⦄ ⦃more : List Char⦄, c.skip.rest = x ++ more →
    Ends (ℓ + 1) more →
    (t.isReference = true → ∀ rest, nextSymbol? more ≠ some ("(", rest)) →
    x.length ≤ depth → (x ++ more).length < bound →
    ∃ left d fuel, left.same t = true ∧ d.rest = more ∧ more.length < fuel ∧
      (Grammar.ofDepth defaultSigil bound depth).atStrength ℓ c =
        (Grammar.ofDepth defaultSigil bound depth).loop ℓ fuel left d

variable {t : Tree}

theorem Ends.not_symbol {symbol : String} (h : Ends ℓ more) (hle : ℓ ≤ symbolStrength symbol) :
    ∀ rest, nextSymbol? more ≠ some (symbol, rest) :=
  fun rest hs => absurd (h.symbol symbol rest hs) (Nat.not_lt_of_le hle)

theorem Reads.joins (h : Reads (ℓ + 1) x t) (hloop : Grammar.IsLoop ℓ) : Joins ℓ x t := by
  intro bound depth c more hc hends _ hdepth hbound
  obtain ⟨left, d, hread, hd, hsame⟩ := h hc hends hdepth hbound
  refine ⟨left, d, bound, hsame, hd, ?_, ?_⟩
  · rw [List.length_append] at hbound
    omega
  · rw [Grammar.atStrength_eq_loop hloop, Reader.bind_ok hread, Grammar.bound_ofDepth]

theorem Joins.reads (h : Joins ℓ x t) (hle : ℓ ≤ Strength.postfixed) : Reads ℓ x t := by
  intro bound depth c more hc hends hdepth hbound
  obtain ⟨left, d, fuel, hsame, hd, hfuel, hread⟩ :=
    h hc (hends.mono (Nat.le_succ ℓ)) (fun _ => hends.not_symbol hle) hdepth hbound
  obtain ⟨fuel, rfl⟩ := Nat.exists_eq_succ_of_ne_zero (Nat.ne_zero_of_lt hfuel)
  exact ⟨left, d, hread.trans (Grammar.loop_stop (hd ▸ hends)), hd, hsame⟩

theorem Reads.power (h : Reads Strength.postfixed x t) : Reads Strength.power x t := by
  intro bound depth c more hc hends hdepth hbound
  refine .bind (h hc (hends.mono (by decide)) hdepth hbound) fun v d hd hv => ?_
  have hno : ∀ rest, nextSymbol? d.rest ≠ some ("**", rest) :=
    hd ▸ hends.not_symbol (by decide)
  exact .step (Reader.acceptSymbol_not hno) (.pure hd hv)

theorem Reads.unary (h : Reads Strength.power x t) (hopens : Opens Strength.power x) :
    Reads Strength.unary x t := by
  intro bound depth c more hc hends hdepth hbound
  have hskip : c.skip.skip.rest = x ++ more := by rw [skip_skip, hc]
  have hread := h hskip (hends.mono (by decide)) hdepth hbound
  refine .here (.get ?_)
  cases hs : nextSymbol? c.skip.rest with
  | none =>
      rw [symbol?_of_none hs]
      exact hread
  | some r =>
      obtain ⟨d, hd, -⟩ := symbol?_of_some hs
      rw [hd]
      dsimp only
      rw [hopens.not_leading hskip hs]
      exact hread

theorem Reads.choice (h : Reads Strength.loosestBinary x t) : Reads Strength.conditional x t := by
  intro bound depth c more hc hends hdepth hbound
  have hskip : c.skip.skip.rest = x ++ more := by rw [skip_skip, hc]
  refine .here (.bind (h hskip (hends.mono (by decide)) hdepth hbound) fun v d hd hv => ?_)
  have hno : ∀ rest, nextSymbol? d.rest ≠ some ("?", rest) :=
    hd ▸ hends.not_symbol (by decide)
  exact .step (Reader.acceptSymbol_not hno) (.pure hd hv)

theorem Reads.assignment (h : Reads Strength.conditional x t) : Reads Strength.assignment x t := by
  intro bound depth c more hc hends hdepth hbound
  have hskip : c.skip.skip.rest = x ++ more := by rw [skip_skip, hc]
  refine .here (.bind (h hskip (hends.mono (by decide)) hdepth hbound) fun v d hd hv => .get ?_)
  cases hs : nextSymbol? d.rest with
  | none =>
      rw [symbol?_of_none hs]
      exact .pure hd hv
  | some r =>
      obtain ⟨e, he, -⟩ := symbol?_of_some hs
      have hnone : assignmentOperator? r.1 = none := by
        by_contra hsome
        obtain ⟨kind, hkind⟩ := Option.ne_none_iff_exists'.mp hsome
        exact (hd ▸ hends).not_symbol (symbolStrength_of_assignmentOperator? hkind) r.2 hs
      rw [he]
      dsimp only
      rw [hnone]
      exact .pure hd hv

/-! ### Legible texts -/

/-- Texts that are read as an expression of a strength. -/
structure Legible (ℓ : Nat) (x : List Char) (t : Tree) : Prop where
  opens : Opens ℓ x
  reads : Reads ℓ x t
  joins : Grammar.IsLoop ℓ → Joins ℓ x t

theorem Legible.of_joins (hopens : Opens ℓ x) (hle : ℓ ≤ Strength.postfixed)
    (h : Joins ℓ x t) : Legible ℓ x t :=
  ⟨hopens, h.reads hle, fun _ => h⟩

theorem Legible.of_reads (hopens : Opens ℓ x) (h : Reads ℓ x t) (hloop : ¬Grammar.IsLoop ℓ) :
    Legible ℓ x t :=
  ⟨hopens, h, fun hℓ => absurd hℓ hloop⟩

theorem Legible.loosen_one (h : Legible (ℓ + 1) x t) (hpos : 1 ≤ ℓ) (hle : ℓ < Strength.postfixed) :
    Legible ℓ x t := by
  have hopens := h.opens.mono (Nat.le_succ ℓ)
  change ℓ < 16 at hle
  by_cases hloop : Grammar.IsLoop ℓ
  · exact .of_joins hopens (Nat.le_of_lt hle) (h.reads.joins hloop)
  have hcases : ℓ = 1 ∨ ℓ = 2 ∨ ℓ = 14 ∨ ℓ = 15 := by
    simp only [Grammar.IsLoop, Strength.loosestBinary, Strength.instanceTest,
      Strength.postfixed] at hloop
    omega
  refine .of_reads hopens ?_ hloop
  rcases hcases with rfl | rfl | rfl | rfl
  · exact Reads.assignment h.reads
  · exact Reads.choice h.reads
  · exact Reads.unary h.reads h.opens
  · exact Reads.power h.reads

/-- A text that is read at a strength is read wherever less is required. -/
theorem Legible.loosen (h : Legible m x t) (hpos : 1 ≤ ℓ) (hle : ℓ ≤ m)
    (hm : m ≤ Strength.postfixed) : Legible ℓ x t := by
  induction hle using Nat.decreasingInduction with
  | self => exact h
  | of_succ k hk ih =>
      exact (ih (Nat.le_succ_of_le hpos)).loosen_one hpos (hk.trans_le hm)

end SnippetRewrite
