import Mathlib.Data.List.Forall2
import SnippetRewrite.Proofs.Parse.Operation

/-!
Formulas are read back from their texts: where an expression must bind at least so tightly, the text
of a formula, with parentheses if it binds more loosely, is read as that formula.
-/

namespace SnippetRewrite

namespace Tree

/-- The text of a node is read as a given expression, at whatever level it is printed. -/
structure ReadBack (t u : Tree) : Prop where
  pos : Strength.assignment ≤ t.strength
  legible : ∀ level, Legible (min t.strength Strength.postfixed) (t.charsAt level) u

variable {t u a b c : Tree} {ℓ line : Nat}

theorem ReadBack.expressionAt (h : t.ReadBack u) (level : Nat) :
    Legible Strength.assignment (t.charsAt level) u :=
  (h.legible level).loosen le_rfl (le_min h.pos (by decide)) (min_le_right _ _)

theorem ReadBack.expression (h : t.ReadBack u) : Legible Strength.assignment t.chars u :=
  h.expressionAt 0

theorem ReadBack.within (h : t.ReadBack u) (hpos : Strength.assignment ≤ ℓ)
    (hle : ℓ ≤ Strength.postfixed) (level : Nat) : Legible ℓ (t.within ℓ level) u := by
  rw [Tree.within]
  split
  · exact (h.expressionAt level).parens.loosen hpos hle le_rfl
  · rename_i hlt
    exact (h.legible level).loosen hpos (le_min (Nat.le_of_not_lt hlt) hle) (min_le_right _ _)

/-- Where anything may stand, an expression is printed without parentheses. -/
theorem ReadBack.within_loosest (h : t.ReadBack u) (level : Nat) :
    Legible Strength.assignment (t.within Strength.loosest level) u := by
  have hplain : t.within Strength.loosest level = t.charsAt level := by
    exact if_neg (Nat.not_lt_zero _)
  rw [hplain]
  exact h.expressionAt level

theorem ReadBack.items {ts us : List Tree} (h : List.Forall₂ ReadBack ts us) (level : Nat) :
    LegibleItems (ts.map (·.within Strength.assignment level)) us :=
  List.forall₂_map_left_iff.mpr (h.imp fun _ _ ht => ht.within le_rfl (by decide) level)

theorem ReadBack.of_legible (ℓ : Nat) (hℓ : min t.strength Strength.postfixed = ℓ)
    (hpos : Strength.assignment ≤ ℓ) (h : ∀ level, Legible ℓ (t.charsAt level) u) :
    t.ReadBack u where
  pos := hpos.trans (hℓ ▸ min_le_left _ _)
  legible level := hℓ ▸ h level

variable {text : String} {ts us : List Tree} {nameLine argumentLine : Nat}

/-! ### Terms and chains -/

theorem ReadBack.literal {value : Value} (h : value.IsPlain) :
    (Tree.literal value line).ReadBack (.literal value line) := by
  refine .of_legible Strength.postfixed rfl (by decide) fun level => ?_
  rw [charsAt_literal]
  exact .literal h

theorem ReadBack.var (h : IsVariableName defaultSigil text) :
    (fixed .var [some (name text nameLine)] line).ReadBack
      (fixed .var [some (name text nameLine)] line) := by
  refine .of_legible Strength.postfixed rfl (by decide) fun level => ?_
  rw [charsAt_var]
  exact .var h

theorem ReadBack.array (h : List.Forall₂ ReadBack ts us) :
    (list .array ts line).ReadBack (list .array us line) := by
  refine .of_legible Strength.postfixed rfl (by decide) fun level => ?_
  rw [charsAt_array]
  exact .array (ReadBack.items h level)

theorem ReadBack.new (hname : IsName defaultSigil text) (h : List.Forall₂ ReadBack ts us) :
    (fixed .new [some (name text nameLine), some (list .argList ts argumentLine)] line).ReadBack
      (fixed .new [some (name text nameLine), some (list .argList us argumentLine)] line) := by
  refine .of_legible Strength.postfixed rfl (by decide) fun level => ?_
  rw [charsAt_new]
  exact .new hname (ReadBack.items h level)

theorem ReadBack.callName (hname : IsVariableName defaultSigil text) (harray : text ≠ "array")
    (h : List.Forall₂ ReadBack ts us) :
    (fixed .call [some (name text nameLine), some (list .argList ts argumentLine)] line).ReadBack
      (fixed .call [some (name text nameLine), some (list .argList us argumentLine)] line) := by
  refine .of_legible Strength.postfixed rfl (by decide) fun level => ?_
  rw [charsAt_callName]
  exact .callName hname harray (ReadBack.items h level)

theorem ReadBack.call (ha : a.ReadBack b) (hleaf : ∀ value, a.label ≠ .leaf .name value)
    (hreference : b.isReference = false) (h : List.Forall₂ ReadBack ts us) :
    (fixed .call [some a, some (list .argList ts argumentLine)] line).ReadBack
      (fixed .call [some b, some (list .argList us argumentLine)] line) := by
  refine .of_legible Strength.postfixed rfl (by decide) fun level => ?_
  rw [charsAt_call _ _ hleaf]
  exact .call (ha.within (by decide) le_rfl 0) hreference (ReadBack.items h level)

theorem ReadBack.prop (ha : a.ReadBack b) (hmember : IsName defaultSigil text) :
    (fixed .prop [some a, some (name text nameLine)] line).ReadBack
      (fixed .prop [some b, some (name text nameLine)] line) := by
  refine .of_legible Strength.postfixed rfl (by decide) fun level => ?_
  rw [charsAt_prop]
  exact .prop (ha.within (by decide) le_rfl level) hmember

theorem ReadBack.methodCall (ha : a.ReadBack b) (hmember : IsName defaultSigil text)
    (h : List.Forall₂ ReadBack ts us) :
    (fixed .methodCall [some a, some (name text nameLine),
      some (list .argList ts argumentLine)] line).ReadBack
      (fixed .methodCall [some b, some (name text nameLine),
        some (list .argList us argumentLine)] line) := by
  refine .of_legible Strength.postfixed rfl (by decide) fun level => ?_
  rw [charsAt_methodCall]
  exact .methodCall (ha.within (by decide) le_rfl level) hmember (ReadBack.items h level)

theorem ReadBack.dim {i j : Option Tree} (ha : a.ReadBack b) (h : Option.Rel ReadBack i j) :
    (fixed .dim [some a, i] line).ReadBack (fixed .dim [some b, j] line) := by
  refine .of_legible Strength.postfixed rfl (by decide) fun level => ?_
  rw [charsAt_dim]
  refine .dim (ha.within (by decide) le_rfl level) ?_ ?_
  · rintro rfl
    cases h
    rfl
  · rintro _ rfl
    cases h with
    | some ht => exact ht.within_loosest level

/-! ### Operations -/

theorem assignmentSymbol {op : BinaryOp} (h : op.hasCompoundForm) :
    op.symbol ++ "=" ∈ symbols ∧ assignmentOperator? (op.symbol ++ "=") = some (.assignOp op) ∧
      symbolStrength (op.symbol ++ "=") < Strength.conditional := by
  cases op <;> first
    | cases h
      done
    | decide

section

variable {d : Tree} {kind : FixedKind} {op : BinaryOp} {symbol : String}

theorem ReadBack.leading (hop : leadingOperator? symbol = some kind) (ha : a.ReadBack b) :
    (fixed kind [some a] line).ReadBack (fixed kind [some b] line) := by
  have hstrength : min (fixed kind [some a] line).strength Strength.postfixed = Strength.unary := by
    unfold leadingOperator? at hop
    split at hop <;> cases hop <;> rfl
  refine .of_legible Strength.unary hstrength (by decide) fun level => ?_
  rw [charsAt_leading hop]
  exact .leading hop (ha.within (by decide) (by decide) level)

theorem ReadBack.postInc (ha : a.ReadBack b) :
    (fixed .postInc [some a] line).ReadBack (fixed .postInc [some b] line) := by
  refine .of_legible Strength.postfixed rfl (by decide) fun level => ?_
  rw [charsAt_postInc]
  exact .step (ha.within (by decide) le_rfl level) (.inl ⟨rfl, rfl⟩)

theorem ReadBack.postDec (ha : a.ReadBack b) :
    (fixed .postDec [some a] line).ReadBack (fixed .postDec [some b] line) := by
  refine .of_legible Strength.postfixed rfl (by decide) fun level => ?_
  rw [charsAt_postDec]
  exact .step (ha.within (by decide) le_rfl level) (.inr ⟨rfl, rfl⟩)

theorem ReadBack.power (ha : a.ReadBack b) (hc : c.ReadBack d) :
    (fixed (.binary .pow) [some a, some c] line).ReadBack
      (fixed (.binary .pow) [some b, some d] line) := by
  refine .of_legible Strength.power rfl (by decide) fun level => ?_
  rw [charsAt_power]
  exact .power (ha.within (by decide) le_rfl level) (hc.within (by decide) (by decide) level)

/-- The right operand of a binary operator binds more tightly than the operation. -/
theorem ReadBack.binary (hop : op ≠ .pow) (ha : a.ReadBack b) (hc : c.ReadBack d) :
    (fixed (.binary op) [some a, some c] line).ReadBack
      (fixed (.binary op) [some b, some d] line) := by
  have hstrength := op.strength_le hop
  have hpos : Strength.assignment ≤ op.strength := le_trans (by decide) hstrength.1
  have hlt : op.strength < Strength.postfixed := hstrength.2.trans_lt (by decide)
  refine .of_legible op.strength (min_eq_left hlt.le) hpos fun level => ?_
  rw [charsAt_binary hop]
  exact .binary hop (ha.within hpos hlt.le level) (hc.within (Nat.le_succ_of_le hpos) hlt level)

theorem ReadBack.instanceTest (ha : a.ReadBack b) (hc : c.ReadBack d) :
    (fixed .instanceTest [some a, some c] line).ReadBack
      (fixed .instanceTest [some b, some d] line) := by
  refine .of_legible Strength.instanceTest rfl (by decide) fun level => ?_
  rw [charsAt_instanceTest]
  exact .instanceTest (ha.within (by decide) (by decide) level)
    (hc.within (by decide) (by decide) level)

theorem ReadBack.assign (ha : a.ReadBack b) (hc : c.ReadBack d) :
    (fixed .assign [some a, some c] line).ReadBack (fixed .assign [some b, some d] line) := by
  have hkind : assignmentOperator? "=" = some .assign := rfl
  refine .of_legible Strength.assignment rfl (by decide) fun level => ?_
  rw [charsAt_assign]
  exact .assignment hkind (fun _ => rfl) (by decide) (ha.within (by decide) le_rfl level)
    (hc.within (by decide) (by decide) level)

theorem ReadBack.assignOp (hop : op.hasCompoundForm) (ha : a.ReadBack b) (hc : c.ReadBack d) :
    (fixed (.assignOp op) [some a, some c] line).ReadBack
      (fixed (.assignOp op) [some b, some d] line) := by
  obtain ⟨hmem, hkind, hstrength⟩ := assignmentSymbol hop
  have hnext (cs : List Char) : nextSymbol? (' ' :: (op.symbol ++ "=").toList ++ ' ' :: cs) =
      some (op.symbol ++ "=", ' ' :: cs) :=
    nextSymbol?_spaced hmem (by cases op <;> rfl)
  refine .of_legible Strength.assignment rfl (by decide) fun level => ?_
  rw [charsAt_assignOp]
  exact .assignment hkind hnext hstrength (ha.within (by decide) le_rfl level)
    (hc.within (by decide) (by decide) level)

theorem ReadBack.conditional {x y : Tree} (ha : a.ReadBack b) (hc : c.ReadBack d)
    (hx : x.ReadBack y) :
    (fixed .conditional [some a, some c, some x] line).ReadBack
      (fixed .conditional [some b, some d, some y] line) := by
  refine .of_legible Strength.conditional rfl (by decide) fun level => ?_
  rw [charsAt_conditional]
  exact .choice (ha.within (by decide) (by decide) level)
    (hc.within (by decide) (by decide) level) (hx.within (by decide) (by decide) level)

theorem ReadBack.operation {operands : List Tree} (hkind : kind.isOperation)
    (hlen : operands.length = kind.arity) (h : List.Forall₂ ReadBack operands us) :
    (fixed kind (operands.map some) line).ReadBack (fixed kind (us.map some) line) := by
  cases kind with
  | binary op =>
      obtain ⟨a, b, rfl⟩ := List.length_eq_two.mp hlen
      obtain _ | ⟨ha, _ | ⟨hb, ⟨⟩⟩⟩ := h
      by_cases hpow : op = .pow
      · subst hpow
        exact .power ha hb
      · exact .binary hpow ha hb
  | unary op =>
      obtain ⟨a, rfl⟩ := List.length_eq_one_iff.mp hlen
      obtain _ | ⟨ha, ⟨⟩⟩ := h
      have hop : leadingOperator? op.symbol = some (.unary op) := by cases op <;> rfl
      exact .leading hop ha
  | preInc =>
      obtain ⟨a, rfl⟩ := List.length_eq_one_iff.mp hlen
      obtain _ | ⟨ha, ⟨⟩⟩ := h
      have hop : leadingOperator? "++" = some .preInc := rfl
      exact .leading hop ha
  | preDec =>
      obtain ⟨a, rfl⟩ := List.length_eq_one_iff.mp hlen
      obtain _ | ⟨ha, ⟨⟩⟩ := h
      have hop : leadingOperator? "--" = some .preDec := rfl
      exact .leading hop ha
  | postInc =>
      obtain ⟨a, rfl⟩ := List.length_eq_one_iff.mp hlen
      obtain _ | ⟨ha, ⟨⟩⟩ := h
      exact .postInc ha
  | postDec =>
      obtain ⟨a, rfl⟩ := List.length_eq_one_iff.mp hlen
      obtain _ | ⟨ha, ⟨⟩⟩ := h
      exact .postDec ha
  | assign =>
      obtain ⟨a, b, rfl⟩ := List.length_eq_two.mp hlen
      obtain _ | ⟨ha, _ | ⟨hb, ⟨⟩⟩⟩ := h
      exact .assign ha hb
  | assignOp op =>
      obtain ⟨a, b, rfl⟩ := List.length_eq_two.mp hlen
      obtain _ | ⟨ha, _ | ⟨hb, ⟨⟩⟩⟩ := h
      exact .assignOp hkind ha hb
  | conditional =>
      obtain ⟨a, b, c, rfl⟩ := List.length_eq_three.mp hlen
      obtain _ | ⟨ha, _ | ⟨hb, _ | ⟨hc, ⟨⟩⟩⟩⟩ := h
      exact .conditional ha hb hc
  | instanceTest =>
      obtain ⟨a, b, rfl⟩ := List.length_eq_two.mp hlen
      obtain _ | ⟨ha, _ | ⟨hb, ⟨⟩⟩⟩ := h
      exact .instanceTest ha hb
  | _ => cases hkind

end

theorem IsFormula.label_ne_name (h : t.IsFormula) (value : Value) : t.label ≠ .leaf .name value := by
  cases h <;> nofun

/-- Formulas are read back from their texts. -/
theorem IsFormula.readBack (h : t.IsFormula) : t.ReadBack t := by
  induction h with
  | literal h => exact .literal h
  | var h => exact .var h
  | operation hkind hlen _ ih => exact .operation hkind hlen (List.forall₂_same.mpr ih)
  | array _ ih => exact .array (List.forall₂_same.mpr ih)
  | @dim object index line _ _ ihobject ihindex =>
      refine .dim ihobject ?_
      cases index with
      | none => exact .none
      | some t => exact .some (ihindex t rfl)
  | prop _ hmember ih => exact .prop ih hmember
  | methodCall _ hmember _ ih ihs => exact .methodCall ih hmember (List.forall₂_same.mpr ihs)
  | new hname _ ihs => exact .new hname (List.forall₂_same.mpr ihs)
  | callName hname harray _ ihs => exact .callName hname harray (List.forall₂_same.mpr ihs)
  | call hcallee hreference _ ih ihs =>
      exact .call ih hcallee.label_ne_name hreference (List.forall₂_same.mpr ihs)

end Tree

end SnippetRewrite
