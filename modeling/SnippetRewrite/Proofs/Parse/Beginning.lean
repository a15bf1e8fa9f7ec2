import SnippetRewrite.Parse.Statement
import SnippetRewrite.Proofs.Parse.Inversion

/-!
How expressions begin. Every reader of expressions first reads an operand, so it succeeds only where
one begins: at a leading operator, a literal, an opening bracket or an identifier. Elsewhere, as
behind the slash of a comment that is never closed, no expression is read.
-/

namespace SnippetRewrite

def beginsExpression (sigil c : Char) : Bool :=
  "!-+~\"'([".toList.contains c || c.isDigit || isIdentifierStart sigil c

def openers : List String :=
  ["!", "-", "+", "~", "++", "--", "(", "["]

/-- A symbol from which an operand is read begins with one of its characters. -/
theorem beginsExpression_of_symbol {symbol : String} (hsymbol : symbol ∈ openers) {sigil ch : Char}
    (hch : symbol.toList.head? = some ch) : beginsExpression sigil ch = true := by
  have hopeners : ∀ s ∈ openers, s.toList.head?.all "!-+~\"'([".toList.contains = true := by decide
  have hmem := hopeners symbol hsymbol
  rw [hch, Option.all_some] at hmem
  simp only [beginsExpression, hmem, Bool.true_or]

namespace Reader

variable {α β : Type} {x y : PlainReader α} {f : α → PlainReader β} {P : Cursor → Prop}

/-- A reader succeeds only where a condition holds. -/
def Needs (x : PlainReader α) (P : Cursor → Prop) : Prop :=
  ∀ c r, x c = .ok r → P c

theorem Needs.bind (h : x.Needs P) : (x >>= f).Needs P := by
  rintro c ⟨w, e⟩ hw
  obtain ⟨v, d, hv, -⟩ := of_bind_ok hw
  exact h c (v, d) hv

theorem Needs.fail (cause : SyntaxCause) : (Reader.fail cause : PlainReader α).Needs P :=
  fun _ _ h => nomatch h

/-- The line of the next token may be noted first if the condition is one on that token. -/
theorem Needs.here {f : Nat → PlainReader β} (hP : ∀ c : Cursor, P c.skip → P c)
    (h : ∀ line, (f line).Needs P) : (Reader.here >>= f).Needs P :=
  fun c r hr => hP c (h _ c.skip r hr)

end Reader

namespace Grammar

open Reader

variable {g : TreeGrammar} {c : Cursor}

def AtExpression (g : TreeGrammar) (c : Cursor) : Prop :=
  ∃ first rest, c.skip.rest = first :: rest ∧ beginsExpression g.sigil first = true

theorem atExpression_skip (g : TreeGrammar) (c : Cursor) (h : g.AtExpression c.skip) :
    g.AtExpression c := by
  rwa [AtExpression, skip_skip] at h

theorem atExpression_of_wordHere? {isStart : Char → Bool} {r : String × Cursor}
    (hstart : ∀ ch, isStart ch = true → isIdentifierStart g.sigil ch = true)
    (h : c.skip.wordHere? isStart = some r) : g.AtExpression c := by
  obtain ⟨first, rest, hrest, hfirst, -, -⟩ := wordHere?_eq_some.mp h
  exact ⟨first, rest, hrest, by simp [beginsExpression, hstart first hfirst]⟩

theorem atExpression_of_symbol? {symbol : String} {next : Cursor}
    (hsymbol : c.symbol? = some (symbol, next)) (h : symbol ∈ openers) : g.AtExpression c := by
  have hnext : nextSymbol? c.rest = some (symbol, next.rest) := by rw [← symbol?_eq, hsymbol]; rfl
  cases hrest : c.skip.rest with
  | nil =>
      rw [nextSymbol?, ← rest_skip, hrest] at hnext
      cases hnext
  | cons first rest =>
      exact ⟨first, rest, hrest, beginsExpression_of_symbol h (head_nextSymbol? hrest hnext)⟩

theorem reference_atExpression (g : TreeGrammar) (line : Nat) : (g.reference line).Needs g.AtExpression := by
  rintro c ⟨t, d⟩ h
  obtain ⟨text, hid, -⟩ := reference_ok h
  exact atExpression_of_wordHere? (fun _ h => h) (identifier_ok hid)

theorem worded_atExpression (g : TreeGrammar) (line : Nat) : (g.worded line).Needs g.AtExpression := by
  intro c r h
  rw [worded, get_bind_apply] at h
  cases hword : c.word? with
  | none =>
      rw [hword] at h
      exact reference_atExpression g line c r h
  | some w =>
      have hstart (ch : Char) (hch : isWordStart ch = true) : isIdentifierStart g.sigil ch = true := by
        simp [isIdentifierStart, hch]
      exact atExpression_of_wordHere? hstart hword

theorem primary_atExpression (g : TreeGrammar) : g.primary.Needs g.AtExpression := by
  intro c r h
  rw [primary, here_bind_apply, get_bind_apply] at h
  have hworded {line : Nat} (h : g.worded line c.skip = .ok r) : g.AtExpression c :=
    g.atExpression_skip c (worded_atExpression g line c.skip r h)
  have hsymbol {symbol : String} {d : Cursor} (h : c.skip.symbol? = some (symbol, d))
      (hopens : symbol ∈ openers) : g.AtExpression c :=
    g.atExpression_skip c (atExpression_of_symbol? h hopens)
  cases hrest : c.skip.rest with
  | nil =>
      rw [hrest] at h
      exact hworded h
  | cons first rest =>
      simp only [hrest] at h
      have hat (hfirst : beginsExpression g.sigil first = true) : g.AtExpression c :=
        ⟨first, rest, hrest, hfirst⟩
      split at h
      · rename_i hdigit
        exact hat (by simp [beginsExpression, hdigit])
      split at h
      · rename_i hquote
        exact hat (by rcases hquote with rfl | rfl <;> simp [beginsExpression])
      obtain ⟨accepted, d, haccept, h⟩ := of_bind_ok h
      obtain ⟨-, hparen⟩ | ⟨rfl, -, rfl⟩ := acceptSymbol_inv haccept
      · exact hsymbol hparen (by decide)
      obtain ⟨accepted, d, haccept, h⟩ := of_bind_ok h
      obtain ⟨-, hbracket⟩ | ⟨rfl, -, rfl⟩ := acceptSymbol_inv haccept
      · exact hsymbol hbracket (by decide)
      exact hworded h

theorem mem_openers_of_leadingOperator? {symbol : String} {kind : FixedKind}
    (h : leadingOperator? symbol = some kind) : symbol ∈ openers := by
  unfold leadingOperator? at h
  split at h
  case h_7 => cases h
  all_goals decide

/-! ### Larger expressions begin with an operand -/

section

variable {P : Cursor → Prop} (hP : ∀ c : Cursor, P c.skip → P c)
include hP

theorem unary_needs (hprimary : g.primary.Needs P)
    (hopener : ∀ c symbol next, c.symbol? = some (symbol, next) → symbol ∈ openers → P c) :
    g.unary.Needs P := by
  have hpower : g.power.Needs P := hprimary.bind.bind
  refine .here hP fun line c r h => ?_
  rw [get_bind_apply] at h
  cases hsymbol : c.symbol? with
  | none =>
      rw [hsymbol] at h
      exact hpower c r h
  | some s =>
      obtain ⟨symbol, next⟩ := s
      simp only [hsymbol] at h
      cases hkind : leadingOperator? symbol with
      | none =>
          rw [hkind] at h
          exact hpower c r h
      | some kind => exact hopener c symbol next hsymbol (mem_openers_of_leadingOperator? hkind)

omit hP in
theorem binary_needs (hunary : g.unary.Needs P) (levels : Nat) : (g.binary levels).Needs P := by
  induction levels with
  | zero => exact hunary.bind
  | succ levels ih => exact ih.bind

theorem choice_needs (hunary : g.unary.Needs P) : g.choice.Needs P :=
  .here hP fun _ => (binary_needs hunary _).bind

theorem assignment_needs (hunary : g.unary.Needs P) : g.assignment.Needs P :=
  .here hP fun _ => (choice_needs hP hunary).bind

end

theorem unary_atExpression (g : TreeGrammar) : g.unary.Needs g.AtExpression :=
  unary_needs g.atExpression_skip (primary_atExpression g) fun _ _ _ => atExpression_of_symbol?

/-- No operand begins with the star of a comment. -/
theorem not_star_of_atExpression (hsigil : g.sigil ≠ '*') (h : g.AtExpression c) (rest : List Char) :
    c.rest ≠ '*' :: rest := by
  intro hstar
  obtain ⟨first, rest', hrest, hfirst⟩ := h
  rw [skip_eq_self hstar rfl, hstar] at hrest
  cases hrest
  simp only [beginsExpression, isIdentifierStart, decide_eq_false hsigil.symm] at hfirst
  exact absurd hfirst (by decide)

/-! ### Words that begin no operand, or only one -/

/-- Where a symbol comes next, no word does. -/
theorem word?_of_symbol? {symbol : String} {next : Cursor} (hsymbol : c.symbol? = some (symbol, next)) :
    c.word? = none := by
  have hnext : nextSymbol? c.rest = some (symbol, next.rest) := by rw [← symbol?_eq, hsymbol]; rfl
  exact word?_of_none (nextWord?_of_symbol hnext)

theorem acceptSymbol_of_word? {symbol : String} {r : String × Cursor} (hword : c.word? = some r) :
    (acceptSymbol symbol : PlainReader Bool) c = .ok (false, c) := by
  refine acceptSymbol_not fun cs hsymbol => ?_
  obtain ⟨next, hnext, -⟩ := symbol?_of_some hsymbol
  rw [word?_of_symbol? hnext] at hword
  cases hword

theorem word?_skip (c : Cursor) : c.skip.word? = c.word? := by
  rw [Cursor.word?, Cursor.word?, skip_skip]

theorem rest_of_word? {word : String} {next : Cursor} (hword : c.word? = some (word, next)) :
    ∃ first rest, c.skip.rest = first :: rest ∧ word.toList.head? = some first := by
  obtain ⟨first, rest, hrest, -, htext, -⟩ := wordHere?_eq_some.mp hword
  exact ⟨first, rest, hrest, by rw [← htext, String.toList_ofList, List.head?_cons]⟩

/-- What begins with a letter is no number, no string and nothing in brackets. -/
theorem primary_of_word? {word : String} {next : Cursor} (hword : c.word? = some (word, next))
    (hletter : word.toList.head?.all Char.isAlpha = true) :
    g.primary c = g.worded c.skip.position.line c.skip := by
  obtain ⟨first, rest, hrest, hfirst⟩ := rest_of_word? hword
  rw [hfirst, Option.all_some] at hletter
  have hdigit : first.isDigit = false := by
    have hcode := isAlpha_iff_toNat.mp hletter
    refine Bool.eq_false_iff.mpr fun hdigit => ?_
    have hdigit : 48 ≤ first.toNat ∧ first.toNat ≤ 57 := Char.isDigit_iff_toNat.mp hdigit
    omega
  have hquote : ¬(first = '"' ∨ first = '\'') := by
    rintro (rfl | rfl) <;> exact absurd hletter (by decide)
  have hno (symbol : String) : (acceptSymbol symbol : PlainReader Bool) c.skip = .ok (false, c.skip) :=
    acceptSymbol_of_word? ((word?_skip c).trans hword)
  rw [primary, here_bind_apply, get_bind_apply]
  simp only [hrest, hdigit]
  rw [if_neg Bool.false_ne_true, if_neg hquote, bind_ok (hno "("), if_neg Bool.false_ne_true,
    bind_ok (hno "["), if_neg Bool.false_ne_true]

/-- An identifier at a word is that word. -/
theorem identifier_eq_word {text word : String} {d next : Cursor} (hid : g.identifier c = .ok (text, d))
    (hword : c.word? = some (word, next)) : text = word ∧ d = next := by
  obtain ⟨first, rest, hrest, -, htext, hd⟩ := wordHere?_eq_some.mp (identifier_ok hid)
  obtain ⟨first', rest', hrest', -, hword, hnext⟩ := wordHere?_eq_some.mp hword
  rw [hrest] at hrest'
  cases hrest'
  exact ⟨htext.symm.trans hword, hd.symm.trans hnext⟩

/-- If the word `function` comes next, a parenthesis follows it. -/
def OpensClosure (c : Cursor) : Prop :=
  ∀ next, c.word? = some ("function", next) → ∃ d, next.symbol? = some ("(", d)

theorem opensClosure_skip (c : Cursor) (h : OpensClosure c.skip) : OpensClosure c := by
  rwa [OpensClosure, word?_skip] at h

/-- An expression that begins with the word `function` is a closure. -/
theorem primary_opensClosure (g : TreeGrammar) : g.primary.Needs OpensClosure := by
  have hclosure {line : Nat} : (g.closure line).Needs fun c => ∃ d, c.symbol? = some ("(", d) := by
    refine Needs.bind (Needs.bind ?_)
    rintro c ⟨u, d⟩ h
    obtain ⟨accepted, d, haccept, h⟩ := of_bind_ok h
    obtain ⟨-, hparen⟩ | ⟨rfl, -, -⟩ := acceptSymbol_inv haccept
    · exact ⟨d, hparen⟩
    · cases h
  intro c r h next hword
  rw [primary_of_word? hword (by decide), worded, get_bind_apply, word?_skip, hword] at h
  exact hclosure next r h

theorem unary_opensClosure (g : TreeGrammar) : g.unary.Needs OpensClosure :=
  unary_needs opensClosure_skip (primary_opensClosure g) fun _ _ _ hsymbol _ next hword => by
    rw [word?_of_symbol? hsymbol] at hword
    cases hword

/-- The alternative of an `if` does not come next. -/
def NotAtElse (c : Cursor) : Prop :=
  ∀ word ∈ ["else", "elseif"], ∀ next, c.word? ≠ some (word, next)

theorem notAtElse_skip (c : Cursor) (h : NotAtElse c.skip) : NotAtElse c := by
  rwa [NotAtElse, word?_skip] at h

/-- No expression begins with the alternative of an `if`. -/
theorem primary_notAtElse (g : TreeGrammar) : g.primary.Needs NotAtElse := by
  rintro c ⟨t, d⟩ h word hmem next hword
  have hletter : ∀ word ∈ ["else", "elseif"], word.toList.head?.all Char.isAlpha = true := by decide
  rw [primary_of_word? hword (hletter word hmem), worded, get_bind_apply, word?_skip, hword] at h
  have href : g.reference c.skip.position.line c.skip = .ok (t, d) := by
    obtain rfl | rfl : word = "else" ∨ word = "elseif" := by simpa using hmem
    · exact h
    · exact h
  obtain ⟨text, hid, -⟩ := reference_ok href
  obtain ⟨rfl, -⟩ := identifier_eq_word hid ((word?_skip c).trans hword)
  have hkeyword : ∀ word ∈ ["else", "elseif"], word ∈ keywords := by decide
  exact (isName_of_identifier hid).notKeyword (hkeyword text hmem)

theorem expression_notAtElse (sigil : Char) (bound depth : Nat) :
    (ofDepth sigil bound depth).expression.Needs NotAtElse := by
  cases depth with
  | zero => exact .fail _
  | succ depth =>
      refine assignment_needs notAtElse_skip (unary_needs notAtElse_skip (primary_notAtElse _) ?_)
      intro c symbol next hsymbol _ word _ behind hword
      rw [word?_of_symbol? hsymbol] at hword
      cases hword

/-- Nor does a statement. -/
theorem anyStatement_notAtElse (h : g.expression.Needs NotAtElse) : g.anyStatement.Needs NotAtElse := by
  rintro c ⟨o, d⟩ hr word hmem next hword
  have hskip : c.skip.word? = some (word, next) := (word?_skip c).trans hword
  obtain ⟨first, rest, hrest, hfirst⟩ := rest_of_word? hword
  rw [anyStatement, here_bind_apply, bind_ok (acceptSymbol_of_word? hskip), if_neg Bool.false_ne_true,
    get_bind_apply] at hr
  obtain rfl | rfl : word = "else" ∨ word = "elseif" := by simpa using hmem
  all_goals
    obtain rfl : 'e' = first := Option.some.inj hfirst
    simp only [hrest] at hr
    replace hr : (some <$> g.plainStatement c.skip.position.line) c.skip = .ok (o, d) := hr
    rw [← bind_pure_comp] at hr
    obtain ⟨t, d, hplain, -⟩ := of_bind_ok hr
    rw [plainStatement, get_bind_apply, hskip] at hplain
    obtain ⟨value, d, hvalue, -⟩ := of_bind_ok (x := g.expression) hplain
    exact h c.skip (value, d) hvalue _ hmem next hskip

end Grammar

end SnippetRewrite
