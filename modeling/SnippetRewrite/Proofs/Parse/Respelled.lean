import SnippetRewrite.Proofs.Parse.Branch
import SnippetRewrite.Proofs.Parse.Declaration
import SnippetRewrite.Proofs.Parse.ReadBack

/-!
Programs of control structures and declarations, over variables, integers, binary operators and
assignments. The text of each part of such a program, at whatever level of indentation, is read as
what it spells. A default is read without assignments outside parentheses and printed as if these
could stand there, so none may be an assignment.
-/

namespace SnippetRewrite

namespace Label

/-- Labels of expressions over variables, integers, binary operators and assignments, and of the
statements that both control structures and declarations are made of. -/
def isSimple : Label → Bool
  | leaf .name (.str _) | leaf .literal (.int _) | fixed .var | fixed (.binary _) | fixed .assign
  | fixed (.assignOp _) | fixed .ret | fixed .echo | list .stmtList => true
  | _ => false

def isControl : Label → Bool
  | fixed .ifElse | fixed .whileLoop | fixed .forLoop => true
  | label => label.isSimple

def isDeclaration : Label → Bool
  | decl _ _ _ | fixed .param | list .paramList | list .closureUses | list .nameList => true
  | label => label.isSimple

def isAssignment : Label → Bool
  | fixed .assign | fixed (.assignOp _) => true
  | _ => false

end Label

namespace Tree

/-- Whether all labels of a tree are of a kind. -/
def consistsOf (p : Label → Bool) (t : Tree) : Bool :=
  !t.anyNode fun label _ => !p label

/-- Whether a node is a parameter whose default is an assignment. -/
def defaultAssigned (label : Label) (slots : List (Option Tree)) : Bool :=
  match label, slots with
  | .fixed .param, [_, some default] => default.label.isAssignment
  | _, _ => false

def assignsDefault : Tree → Bool :=
  anyNode defaultAssigned

variable {t : Tree} {line level : Nat} {label : Label} {slots : List (Option Tree)}
  {p q : Label → Bool}

theorem consistsOf_node : (node line label slots).consistsOf p = true ↔
    p label = true ∧ ∀ t, some t ∈ slots → t.consistsOf p = true := by
  simp only [consistsOf, Bool.not_eq_true', anyNode_eq_false, Bool.not_eq_false']

theorem consistsOf_mono (h : ∀ label, p label = true → q label = true) (ht : t.consistsOf p = true) :
    t.consistsOf q = true := by
  induction t using Tree.induct with
  | node line label slots ih =>
      obtain ⟨hlabel, hslots⟩ := consistsOf_node.mp ht
      exact consistsOf_node.mpr ⟨h label hlabel, fun t hmem => ih t hmem (hslots t hmem)⟩

/-- Trees of control structures and declarations in which no default is an assignment. -/
structure Plain (t : Tree) : Prop where
  labels : t.consistsOf (fun label => label.isControl || label.isDeclaration) = true
  defaults : t.assignsDefault = false

theorem Plain.kind (h : (node line label slots).Plain) :
    label.isControl = true ∨ label.isDeclaration = true := by
  simpa using (consistsOf_node.mp h.labels).1

theorem Plain.slot (h : (node line label slots).Plain) (ht : some t ∈ slots) : t.Plain :=
  ⟨(consistsOf_node.mp h.labels).2 t ht, (anyNode_eq_false.mp h.defaults).2 t ht⟩

theorem Plain.item {kind : ListKind} {items : List Tree} (h : (list kind items line).Plain)
    (ht : t ∈ items) : t.Plain :=
  h.slot (List.mem_map.mpr ⟨t, ht, rfl⟩)

/-! ### Texts of expressions -/

theorem solid_of_all {x : List Char} (hne : x ≠ []) (h : ∀ d ∈ x, isBlank d = false) : Solid x :=
  ⟨x.dropLast, x.getLast hne, (List.dropLast_append_getLast hne).symm, h _ (List.getLast_mem hne)⟩

theorem solid_name {text : String} (h : IsIdentifier defaultSigil text) : Solid text.toList := by
  obtain ⟨first, tail, htext, hfirst, htail⟩ := h
  have hblank : isBlank first = false := by
    simp only [isIdentifierStart, isWordStart, Bool.or_eq_true, decide_eq_true_eq] at hfirst
    rcases hfirst with ((hfirst | rfl) | rfl) | rfl
    · exact isBlank_of_isWordChar (by simp [isWordChar, isAlphanumeric, hfirst])
    all_goals decide
  rw [htext]
  refine solid_of_all (List.cons_ne_nil _ _) fun d hd => ?_
  rcases List.mem_cons.mp hd with rfl | hd
  · exact hblank
  · exact isBlank_of_isWordChar (htail d hd)

theorem solid_integer (n : Nat) : Solid (toString n).toList := by
  have hdigit : ∀ d ∈ (toString n).toList, d.isDigit = true := by
    intro d hd
    rw [Nat.toString_eq_repr, Nat.toList_repr] at hd
    exact Nat.isDigit_of_mem_toDigits (by decide) (by decide) hd
  refine solid_of_all ?_ fun d hd => isBlank_of_isWordChar (isWordChar_of_isDigit (hdigit d hd))
  rw [Nat.toString_eq_repr, Nat.toList_repr]
  exact Nat.toDigits_ne_nil

theorem solid_within {ℓ : Nat} (h : Solid (t.charsAt level)) : Solid (t.within ℓ level) := by
  rw [Tree.within]
  split
  · exact .of_last (by decide) _
  · exact h

/-- The text of an expression is read as what it spells, and ends in no blank. -/
structure ReadsExpression (t : Tree) : Prop where
  readBack : t.ReadBack t.spelled
  solid : ∀ level, Solid (t.charsAt level)

theorem ReadsExpression.integer {n : Int} (h : (Value.int n).IsPlain) :
    (literal (.int n) line).ReadsExpression := by
  obtain ⟨n, rfl⟩ := Int.eq_ofNat_of_zero_le h.1
  refine ⟨?_, fun level => ?_⟩
  · have hspelled : (literal (.int n) line).spelled = literal (.int n) line := spelled_node ..
    rw [hspelled]
    exact .literal h
  · rw [charsAt_literal]
    exact solid_integer n

theorem ReadsExpression.var {text : String} (h : IsVariableName defaultSigil text) :
    (Tree.var text line).ReadsExpression := by
  refine ⟨?_, fun level => ?_⟩
  · have hspelled : (Tree.var text line).spelled = Tree.var text line := spelled_node ..
    rw [hspelled]
    exact .var h
  · have hchars : (Tree.var text line).charsAt level = text.toList := charsAt_var text line line
    rw [hchars]
    exact solid_name h.identifier

/-- The labels of operations that occur are those of binary operators and assignments. -/
theorem operation_cases {kind : FixedKind} (hkind : kind.isOperation)
    (hplain : (Label.fixed kind).isControl = true ∨ (Label.fixed kind).isDeclaration = true) :
    (∃ op, kind = .binary op) ∨ kind = .assign ∨ ∃ op, kind = .assignOp op := by
  cases kind <;> simp_all [FixedKind.isOperation, Label.isControl, Label.isDeclaration,
    Label.isSimple]

theorem ReadsExpression.operation {kind : FixedKind} {operands : List Tree} (hkind : kind.isOperation)
    (hplain : (Label.fixed kind).isControl = true ∨ (Label.fixed kind).isDeclaration = true)
    (hlen : operands.length = kind.arity) (h : ∀ t ∈ operands, t.ReadsExpression) :
    (fixed kind (operands.map some) line).ReadsExpression := by
  have hne : kind ≠ .ifElse := by
    rintro rfl
    cases hkind
  have hspelled : (fixed kind (operands.map some) line).spelled =
      fixed kind ((operands.map spelled).map some) line := by
    rw [spelled_fixed hne, List.map_map, List.map_map]
    rfl
  have hbinary := operation_cases hkind hplain
  refine ⟨?_, fun level => ?_⟩
  · rw [hspelled]
    exact .operation hkind hlen (List.forall₂_map_right_iff.mpr (List.forall₂_same.mpr
      fun t ht => (h t ht).readBack))
  · have harity : kind.arity = 2 := by
      rcases hbinary with ⟨op, rfl⟩ | rfl | ⟨op, rfl⟩ <;> rfl
    obtain ⟨a, b, rfl⟩ := List.length_eq_two.mp (hlen.trans harity)
    have hb : Solid (b.charsAt level) := (h b (by simp)).solid level
    simp only [List.map_cons, List.map_nil]
    rcases hbinary with ⟨op, rfl⟩ | rfl | ⟨op, rfl⟩
    · by_cases hpow : op = .pow
      · rw [hpow, charsAt_power]
        exact .append (.append (solid_within hb) [' ', '*', '*', ' ']) _
      · rw [charsAt_binary hpow]
        exact .append (.cons (solid_within hb) ' ') _
    · rw [charsAt_assign]
      exact .append (.cons (solid_within hb) ' ') _
    · rw [charsAt_assignOp]
      exact .append (.cons (solid_within hb) ' ') _

/-! ### Texts of declarations -/

theorem ReadsExpression.clause (h : t.ReadsExpression) (level : Nat) :
    Legible Strength.assignment (t.charsAt level) t.spelled :=
  h.readBack.expressionAt level

/-- An expression that is no assignment binds more tightly than one. -/
theorem strength_of_not_assignment (h : t.IsPart defaultSigil .expression) (hplain : t.Plain)
    (hassign : t.label.isAssignment = false) : Strength.conditional ≤ t.strength := by
  cases h with
  | literal | var | closure => exact (by decide : Strength.conditional ≤ Strength.primary)
  | operation hkind _ _ =>
      rcases operation_cases hkind hplain.kind with ⟨op, rfl⟩ | rfl | ⟨op, rfl⟩
      · have hop : Strength.conditional ≤ op.strength := by cases op <;> decide
        exact hop
      · cases hassign
      · cases hassign
  | _ => exact absurd hplain.kind (by decide)

def ReadsParam (t : Tree) : Prop :=
  ∀ level, ItemText Grammar.param (t.within Strength.assignment level) t.spelled

theorem readsParam {text : String} {nameLine : Nat} {default : Option Tree}
    (hname : IsName defaultSigil text) (h : ∀ t ∈ default, t.ReadsExpression)
    (hstrength : ∀ t ∈ default, Strength.conditional ≤ t.strength) :
    (fixed .param [some (name text nameLine), default] line).ReadsParam := by
  intro level
  have hwithin : (fixed .param [some (name text nameLine), default] line).within Strength.assignment
      level = (fixed .param [some (name text nameLine), default] line).charsAt level := rfl
  have hspelled : (fixed .param [some (name text nameLine), default] line).spelled =
      fixed .param [some (name text nameLine), default.map spelled] line := spelled_node ..
  rw [hwithin, charsAt_param, hspelled]
  cases default with
  | none =>
      have hparam : ItemText Grammar.param
          (text.toList ++ ((none : Option Tree).elim [] fun _ => " = ".toList) ++ [])
          (fixed .param [some (name text nameLine), none] line) :=
        .param hname (fun _ => rfl) (by simp)
      simpa using hparam
  | some t =>
      have ht := h t rfl
      have hchars : t.within Strength.assignment level = t.charsAt level :=
        if_neg (Nat.not_lt_of_le ht.readBack.pos)
      have hlegible : Legible Strength.conditional (t.charsAt level) t.spelled :=
        (ht.readBack.legible level).loosen (by decide) (le_min (hstrength t rfl) (by decide))
          (min_le_right _ _)
      have hparam : ItemText Grammar.param
          (text.toList ++ ((some t.spelled).elim [] fun _ => " = ".toList) ++ t.charsAt level)
          (fixed .param [some (name text nameLine), some t.spelled] line) :=
        .param hname (by simp) (by simpa using hlegible)
      rw [← hchars] at hparam
      simpa using hparam

theorem readsCaptured {text : String} (h : IsName defaultSigil text) (level : Nat) :
    ItemText Grammar.capturedVariable ((Tree.var text line).within Strength.assignment level)
      (Tree.var text line).spelled := by
  have hspelled : (Tree.var text line).spelled = Tree.var text line := spelled_node ..
  have hchars : (Tree.var text line).within Strength.assignment level = text.toList :=
    charsAt_var text line line
  rw [hspelled, hchars]
  exact .captured h

def ReadsUses (t : Tree) : Prop :=
  ∀ level, UsesText (usesAt (some t) level) (spelledUses (some t))

theorem readsUses {items : List Tree} (h : ∀ t ∈ items, ∀ level, ItemText Grammar.capturedVariable
    (t.within Strength.assignment level) t.spelled) : (list .closureUses items line).ReadsUses := by
  intro level
  cases items with
  | nil => exact .absent
  | cons t items =>
      have hspelled : spelledUses (some (list .closureUses (t :: items) line)) =
          some (list .closureUses ((t :: items).map spelled) line) := congrArg some (spelled_list ..)
      rw [hspelled]
      have hitems : ((list .closureUses (t :: items) line).printed.items level).toList =
          commaSeparated ((t :: items).map (·.within Strength.assignment level)) := by
        rw [printed_list, String.toList_ofList]
        rfl
      show UsesText (" use (".toList ++
        ((list .closureUses (t :: items) line).printed.items level).toList ++ [')']) _
      rw [hitems]
      exact .written (List.forall₂_map_left_iff.mpr (List.forall₂_map_right_iff.mpr
        (List.forall₂_same.mpr fun t ht => h t ht level)))

/-- A text is read as the signature that it spells. -/
theorem readsSignature {items : List Tree} {uses result : Option Tree}
    (hparams : ∀ t ∈ items, t.ReadsParam) (huses : ∀ t ∈ uses, t.ReadsUses)
    (hresult : ∀ t ∈ result, ResultText (": ".toList ++ t.printed.name.toList) (some t.spelled))
    (paramsLine level : Nat) : SignatureText (signatureAt items uses result level)
      (list .paramList items paramsLine).spelled (spelledUses uses) (result.map spelled) := by
  rw [spelled_list]
  refine .of_parts (List.forall₂_map_left_iff.mpr (List.forall₂_map_right_iff.mpr
    (List.forall₂_same.mpr fun t ht => hparams t ht level))) ?_ ?_ ?_
  · cases uses with
    | none => exact .absent
    | some t => exact huses t rfl level
  · cases result with
    | none => exact .absent
    | some t => exact hresult t rfl
  · cases result with
    | none => exact .inl rfl
    | some t => exact .inr ⟨' ' :: t.printed.name.toList, by simp [resultAt]⟩

/-! ### Texts of statements -/

def ReadsStatement (t : Tree) : Prop :=
  ∀ level, Written (t.statementAt level) (some t.spelled)

/-- A text is read as the block that it spells, and ends with its brace. -/
structure ReadsBlock (t : Tree) : Prop where
  braced : ∀ level, Braced (t.blockAt level) t.spelled
  solid : ∀ level, Solid (t.blockAt level)

theorem lines_blockBody {Item : List Char → Tree → Prop} {items : List Tree}
    (h : ∀ t ∈ items, Item (t.statementAt (level + 1)) t.spelled) (more : List Char) :
    Lines Item ('\x7d' :: more) (blockBody items level ++ '\x7d' :: more) (items.map spelled) := by
  have hindent (n : Nat) : ∀ d ∈ (indentation n).toList, isSeparator d = true := by
    intro d hd
    rw [indentation, String.toList_ofList] at hd
    rw [(List.mem_replicate.mp hd).2]
    rfl
  have hlines : ∀ gap : List Char, (∀ d ∈ gap, isSeparator d = true) →
      Lines Item ('\x7d' :: more) (gap ++ ((items.flatMap fun t =>
        (indentation (level + 1)).toList ++ t.statementAt (level + 1) ++ ['\n']) ++
          ((indentation level).toList ++ '\x7d' :: more))) (items.map spelled) := by
    induction items with
    | nil =>
        intro gap hgap
        have hall : ∀ d ∈ gap ++ (indentation level).toList, isSeparator d = true := by
          simpa [or_imp, forall_and] using ⟨hgap, hindent level⟩
        simpa using Lines.stop hall
    | cons t items ih =>
        intro gap hgap
        have hall : ∀ d ∈ gap ++ (indentation (level + 1)).toList, isSeparator d = true := by
          simpa [or_imp, forall_and] using ⟨hgap, hindent (level + 1)⟩
        have hrest := ih (fun t ht => h t (List.mem_cons_of_mem _ ht)) ['\n']
          (List.forall_mem_singleton.mpr rfl)
        simpa using Lines.cons hall (h t List.mem_cons_self) hrest
  cases items with
  | nil => exact .stop (List.forall_mem_nil _)
  | cons t items => simpa [blockBody] using hlines ['\n'] (List.forall_mem_singleton.mpr rfl)

theorem readsBlock {items : List Tree} (h : ∀ t ∈ items, t.ReadsStatement) :
    (list .stmtList items line).ReadsBlock := by
  refine ⟨fun level => ?_, fun level => ?_⟩
  · rw [blockAt_list, spelled_list]
    refine .of_lines fun more => lines_blockBody (fun t ht => ?_) more
    have hwritten := h t ht (level + 1)
    exact ⟨hwritten.begins, hwritten.tells⟩
  · rw [blockAt_list]
    exact .of_last (by decide) _

theorem written_branch {o : Option Tree} (h : ∀ t ∈ o, t.ReadsStatement) :
    Written (branchAt o level) (o.map spelled) := by
  cases o with
  | none => exact .closed (.of_first rfl (by decide) (by decide)) .nothing rfl
  | some t => exact h t rfl level

/-- What is no control structure takes no `else`. -/
theorem StatementText.written {x : List Char} (h : StatementText x t.spelled)
    (hlabel : t.label ∉ [.fixed .ifElse, .fixed .whileLoop, .fixed .forLoop]) :
    Written x (some t.spelled) :=
  .closed h.begins h.tells (takesElse_of_label (label_spelled t ▸ hlabel))

theorem optionalText {o : Option Tree} (h : ∀ t ∈ o, t.ReadsExpression) (level : Nat) :
    OptionalText (o.elim [] (·.charsAt level)) (o.map spelled) := by
  cases o with
  | none => exact ⟨fun _ => rfl, by simp⟩
  | some t => exact ⟨by simp, by simpa using (h t rfl).clause level⟩

/-- Expressions are no statements by themselves. -/
theorem controlText_expression (h : t.IsPart defaultSigil .expression) :
    ∀ slots level, controlText t.label slots level = none := by
  intro slots level
  cases h with
  | @operation kind _ _ hkind =>
      cases kind with
      | ifElse | whileLoop | forLoop | ret | echo => cases hkind
      | _ => rfl
  | _ => rfl

theorem ReadsExpression.statement (h : t.ReadsExpression)
    (hcontrol : ∀ slots level, controlText t.label slots level = none) : t.ReadsStatement := by
  intro level
  have hlabel : t.label ∉ [.fixed .ifElse, .fixed .whileLoop, .fixed .forLoop] := by
    intro hmem
    have hnone := hcontrol [] 0
    simp only [List.mem_cons, List.not_mem_nil, or_false] at hmem
    rcases hmem with heq | heq | heq <;> rw [heq] at hnone <;> cases hnone
  rw [statementAt_expression fun slots => hcontrol slots level]
  exact StatementText.written (.expression (h.clause level)) hlabel

variable {condition yes no value : Tree} {o body start test step : Option Tree}

theorem readsRet (h : ∀ t ∈ o, t.ReadsExpression) : (fixed .ret [o] line).ReadsStatement := by
  intro level
  have hspelled : (fixed .ret [o] line).spelled = fixed .ret [o.map spelled] line := spelled_node ..
  have hgap : (o.elim [] fun _ => [' ']) = (o.map spelled).elim [] fun _ => [' '] := by
    cases o <;> rfl
  rw [statementAt_ret, hgap]
  refine StatementText.written ?_ (by simp [fixed, Tree.label])
  rw [hspelled]
  exact .ret (optionalText h level)

theorem readsEcho (h : value.ReadsExpression) : (fixed .echo [some value] line).ReadsStatement := by
  intro level
  have hspelled : (fixed .echo [some value] line).spelled =
      fixed .echo [some value.spelled] line := spelled_node ..
  rw [statementAt_echo]
  refine StatementText.written ?_ (by simp [fixed, Tree.label])
  rw [hspelled]
  exact .echo (h.clause 0)

/-- An `else` behind a branch that takes it is spelled as part of that. -/
theorem readsIfElse (hcondition : condition.ReadsExpression) (hyes : ∀ t ∈ o, t.ReadsStatement)
    (hno : ∀ t ∈ body, t.ReadsStatement) :
    (fixed .ifElse [some condition, o, body] line).ReadsStatement := by
  intro level
  have hx := hcondition.clause 0
  have hy : Written (branchAt o level) (o.map spelled) := written_branch hyes
  rw [statementAt_ifElse]
  cases body with
  | none =>
      have hspelled : (fixed .ifElse [some condition, o, none] line).spelled =
          fixed .ifElse [some condition.spelled, o.map spelled, none] line := by
        cases o <;> exact spelled_node ..
      rw [hspelled]
      simpa using Written.ifThen hx hy
  | some no =>
      have hz := hno no rfl level
      cases o with
      | none =>
          have hspelled : (fixed .ifElse [some condition, none, some no] line).spelled =
              fixed .ifElse [some condition.spelled, none, some no.spelled] line := spelled_node ..
          rw [hspelled]
          simpa using Written.ifElse hx hy rfl hz
      | some yes =>
          rw [spelled_ifElse]
          split
          · rename_i htakes
            have hgiven := Written.giveElse hy rfl htakes hz
            simpa using Written.ifThen hx hgiven
          · rename_i htakes
            simpa using Written.ifElse hx hy (by simpa using htakes) hz

theorem readsWhile (hcondition : condition.ReadsExpression) (hbody : ∀ t ∈ body, t.ReadsStatement) :
    (fixed .whileLoop [some condition, body] line).ReadsStatement := by
  intro level
  rw [statementAt_whileLoop, spelled_fixed (by decide)]
  exact .whileLoop (hcondition.clause 0) (written_branch hbody)

theorem readsFor (hstart : ∀ t ∈ start, t.ReadsExpression) (htest : ∀ t ∈ test, t.ReadsExpression)
    (hstep : ∀ t ∈ step, t.ReadsExpression) (hbody : ∀ t ∈ body, t.ReadsStatement) :
    (fixed .forLoop [start, test, step, body] line).ReadsStatement := by
  intro level
  have hheader (x y z : List Char) : forHeader x y z step = forHeader x y z (step.map spelled) := by
    cases step <;> rfl
  rw [statementAt_forLoop fun t ht => (hstep t ht).solid 0, spelled_fixed (by decide), hheader]
  exact .forLoop (optionalText hstart 0) (optionalText htest 0) (optionalText hstep 0)
    (written_branch hbody)

theorem ReadsBlock.statement {items : List Tree} (h : (list .stmtList items line).ReadsBlock) :
    (list .stmtList items line).ReadsStatement := by
  intro level
  rw [statementAt_block]
  exact StatementText.written (h.braced level).statement (by simp [list, Tree.label])

/-! ### Texts of functions and classes -/

variable {items : List Tree} {uses result closed : Option Tree} {block : Tree} {text : String}
  {flags paramsLine bodyLine : Nat}

theorem ReadsExpression.closure (hparams : ∀ t ∈ items, t.ReadsParam) (huses : ∀ t ∈ uses, t.ReadsUses)
    (hblock : block.ReadsBlock)
    (hresult : ∀ t ∈ result, ResultText (": ".toList ++ t.printed.name.toList) (some t.spelled)) :
    (node line (.decl .closure closureName 0) [some (list .paramList items paramsLine), uses,
      some block, result]).ReadsExpression := by
  refine ⟨.of_legible Strength.postfixed rfl (by decide) fun level => ?_, fun level => ?_⟩
  · rw [charsAt_closure, spelled_signature]
    exact .closure (readsSignature hparams huses hresult paramsLine level) (hblock.braced level)
  · rw [charsAt_closure]
    exact .append ((hblock.solid level).cons ' ') _

theorem readsFunction (hname : IsName defaultSigil text) (hparams : ∀ t ∈ items, t.ReadsParam)
    (huses : ∀ t ∈ uses, t.ReadsUses) (hblock : block.ReadsBlock)
    (hresult : ∀ t ∈ result, ResultText (": ".toList ++ t.printed.name.toList) (some t.spelled)) :
    (node line (.decl .function text 0) [some (list .paramList items paramsLine), uses,
      some block, result]).ReadsStatement := by
  intro level
  have hmodifiers : (modifiersText 0).toList = [] := by decide
  rw [statementAt_function (.inl rfl), hmodifiers, List.nil_append]
  refine StatementText.written ?_ (by simp [Tree.label])
  rw [spelled_signature]
  exact .function hname (readsSignature hparams huses hresult paramsLine level) (hblock.braced level)

def ReadsMethod (t : Tree) : Prop :=
  ∀ level, MethodText (t.statementAt level) t.spelled

theorem readsMethod (hflags : flags < 64) (hname : IsName defaultSigil text)
    (hparams : ∀ t ∈ items, t.ReadsParam) (huses : ∀ t ∈ uses, t.ReadsUses)
    (hclosed : ∀ t ∈ closed, t.ReadsBlock)
    (hresult : ∀ t ∈ result, ResultText (": ".toList ++ t.printed.name.toList) (some t.spelled)) :
    (node line (.decl .method text flags) [some (list .paramList items paramsLine), uses,
      closed, result]).ReadsMethod := by
  intro level
  rw [statementAt_function (.inr rfl), spelled_signature]
  refine .of_parts hflags hname (readsSignature hparams huses hresult paramsLine level) ?_
  cases closed with
  | none => exact .absent
  | some t => exact .written ((hclosed t rfl).braced level)

def ReadsName (t : Tree) : Prop :=
  NameText t.printed.name.toList t

theorem readsName (h : IsName defaultSigil text) : (name text line).ReadsName :=
  ⟨text, line, h, by rw [printed_name], rfl⟩

theorem ReadsName.spelled (h : t.ReadsName) : t.spelled = t := by
  obtain ⟨text, line, -, -, rfl⟩ := h
  exact spelled_node ..

theorem ReadsName.within (h : t.ReadsName) (level : Nat) :
    t.within Strength.assignment level = t.printed.name.toList := by
  obtain ⟨text, line, -, -, rfl⟩ := h
  rw [printed_name]
  exact charsAt_name text line level

theorem readsResult {mark : String} (hmark : mark = "" ∨ mark = "?") (h : IsName defaultSigil text) :
    ResultText (": ".toList ++ (name (mark ++ text) line).printed.name.toList)
      (some (name (mark ++ text) line).spelled) := by
  have hspelled : (name (mark ++ text) line).spelled = name (mark ++ text) line := spelled_node ..
  rw [printed_name, hspelled]
  exact .written hmark h

/-- A text is read as the interfaces that it spells, and is not empty. -/
structure ReadsNames (t : Tree) : Prop where
  interfaces : ∀ level, InterfacesText (interfacesAt (some t) level) (some t.spelled)
  ne_empty : ∀ level, t.printed.items level ≠ ""

theorem readsNames (hne : items ≠ []) (h : ∀ t ∈ items, t.ReadsName) :
    (list .nameList items line).ReadsNames := by
  have hspelled : items.map Tree.spelled = items :=
    List.map_congr_left (fun t ht => (h t ht).spelled) |>.trans (List.map_id items)
  have hchars (level : Nat) : ((list .nameList items line).printed.items level).toList =
      commaSeparated (items.map (·.printed.name.toList)) := by
    rw [printed_list, String.toList_ofList, itemsChars,
      List.map_congr_left fun t ht => (h t ht).within level]
  refine ⟨fun level => ?_, fun level hempty => ?_⟩
  · rw [spelled_list, hspelled]
    show InterfacesText (" implements ".toList ++
      ((list .nameList items line).printed.items level).toList) _
    rw [hchars]
    exact .written (List.forall₂_map_left_iff.mpr (List.forall₂_same.mpr h)) (by simpa using hne)
  · have hnil := (hchars level).symm.trans (congrArg String.toList hempty)
    cases items with
    | nil => exact hne rfl
    | cons t items =>
        obtain ⟨name, -, hname, htext, -⟩ := h t List.mem_cons_self
        obtain ⟨d, cs, hfirst, -⟩ := hname.first
        obtain ⟨tail, htail⟩ := commaSeparated_cons t.printed.name.toList
          (items.map (·.printed.name.toList))
        rw [List.map_cons, htail, htext, hfirst] at hnil
        cases hnil

theorem readsClass {parent interfaces : Option Tree} {methods : List Tree} (hflags : flags < 64)
    (hfirst : flags = 0 ∨ flags &&& 48 ≠ 0) (hname : IsName defaultSigil text)
    (hparent : ∀ t ∈ parent, t.ReadsName) (hinterfaces : ∀ t ∈ interfaces, t.ReadsNames)
    (hmethods : ∀ t ∈ methods, t.ReadsMethod) :
    (node line (.decl .classDef text flags)
      [parent, interfaces, some (list .stmtList methods bodyLine)]).ReadsStatement := by
  intro level
  have hspelled : (node line (.decl .classDef text flags)
      [parent, interfaces, some (list .stmtList methods bodyLine)]).spelled =
      node line (.decl .classDef text flags) [parent.map spelled, interfaces.map spelled,
        some (list .stmtList (methods.map spelled) bodyLine)] := by
    rw [spelled_other (by simp) (by simp)]
    simp only [List.map_cons, List.map_nil, Option.map_some, spelled_list]
  have hx : ParentText (parent.elim [] fun t => " extends ".toList ++ t.printed.name.toList)
      (parent.map spelled) := by
    cases parent with
    | none => exact .absent
    | some t =>
        rw [Option.map_some, (hparent t rfl).spelled]
        exact .written (hparent t rfl)
  have hy : InterfacesText (interfacesAt interfaces level) (interfaces.map spelled) := by
    cases interfaces with
    | none => exact .absent
    | some t => exact (hinterfaces t rfl).interfaces level
  rw [statementAt_class text fun t ht => (hinterfaces t ht).ne_empty level, blockAt_list]
  refine StatementText.written ?_ (by simp [Tree.label])
  rw [hspelled]
  have hz (more : List Char) : Lines MethodText ('\x7d' :: more)
      (blockBody methods level ++ '\x7d' :: more) (methods.map spelled) :=
    lines_blockBody (fun t ht => hmethods t ht (level + 1)) more
  simpa using StatementText.classDef hflags hfirst hname hx hy hz

/-! ### Texts of programs -/

/-- What is shown of each part of a program. There are no arguments without calls. -/
def ReadsPart (part : Part) (t : Tree) : Prop :=
  match part with
  | .name => t.ReadsName
  | .expression => t.ReadsExpression
  | .arguments => False
  | .param => t.ReadsParam
  | .params => ∃ items line, t = list .paramList items line ∧ ∀ s ∈ items, s.ReadsParam
  | .captured => ∀ level, ItemText Grammar.capturedVariable (t.within Strength.assignment level) t.spelled
  | .uses => t.ReadsUses
  | .result => ResultText (": ".toList ++ t.printed.name.toList) (some t.spelled)
  | .statement => t.ReadsStatement
  | .block => t.ReadsBlock
  | .method => t.ReadsMethod
  | .names => t.ReadsNames

/-- The text of each part of a plain program is read as what it spells. -/
theorem IsPart.reads {part : Part} (h : t.IsPart defaultSigil part) (hplain : t.Plain) :
    t.ReadsPart part := by
  induction h with
  | name h => exact readsName h
  | @literal value line h =>
      cases value with
      | int n =>
          have hmax : n < 2 ^ 63 := Int.lt_of_le_of_lt h.2 (by decide)
          exact ReadsExpression.integer ⟨h.1, hmax⟩
      | _ => exact absurd hplain.kind (by simp [Label.isControl, Label.isDeclaration, Label.isSimple])
  | var h => exact ReadsExpression.var h
  | operation hkind hlen _ ih =>
      exact ReadsExpression.operation hkind hplain.kind hlen fun t ht =>
        ih t ht (hplain.slot (List.mem_map.mpr ⟨t, ht, rfl⟩))
  | closure _ _ _ _ ihparams ihuses ihbody ihresult =>
      obtain ⟨items, paramsLine, rfl, hitems⟩ := ihparams (hplain.slot (by simp))
      exact ReadsExpression.closure hitems (fun t ht => ihuses t ht (hplain.slot (by simp_all)))
        (ihbody (hplain.slot (by simp))) fun t ht => ihresult t ht (hplain.slot (by simp_all))
  | @param name default line hname hdefault _ ihdefault =>
      cases hname with
      | name hname =>
          refine readsParam hname (fun t ht => ihdefault t ht (hplain.slot (by simp_all))) ?_
          rintro t rfl
          refine strength_of_not_assignment (hdefault t rfl) (hplain.slot (by simp)) ?_
          exact (Bool.or_eq_false_iff.mp hplain.defaults).1
  | params _ ih => exact ⟨_, _, rfl, fun t ht => ih t ht (hplain.item ht)⟩
  | captured h => exact readsCaptured h
  | uses _ ih => exact readsUses fun t ht => ih t ht (hplain.item ht)
  | result hmark h => exact readsResult hmark h
  | ofExpression h ih => exact (ih hplain).statement (controlText_expression h)
  | ofBlock h ih =>
      cases h with
      | block => exact ReadsBlock.statement (ih hplain)
  | block _ ih => exact readsBlock fun t ht => ih t ht (hplain.item ht)
  | ifElse _ _ _ ihcondition ihyes ihno =>
      exact readsIfElse (ihcondition (hplain.slot (by simp)))
        (fun t ht => ihyes t ht (hplain.slot (by simp_all)))
        fun t ht => ihno t ht (hplain.slot (by simp_all))
  | whileLoop _ _ ihcondition ihbody =>
      exact readsWhile (ihcondition (hplain.slot (by simp)))
        fun t ht => ihbody t ht (hplain.slot (by simp_all))
  | forLoop _ _ _ _ ihstart ihtest ihstep ihbody =>
      exact readsFor (fun t ht => ihstart t ht (hplain.slot (by simp_all)))
        (fun t ht => ihtest t ht (hplain.slot (by simp_all)))
        (fun t ht => ihstep t ht (hplain.slot (by simp_all)))
        fun t ht => ihbody t ht (hplain.slot (by simp_all))
  | ret _ ih => exact readsRet fun t ht => ih t ht (hplain.slot (by simp_all))
  | echo _ ih => exact readsEcho (ih (hplain.slot (by simp)))
  | function hname _ _ _ _ ihparams ihuses ihbody ihresult =>
      obtain ⟨items, paramsLine, rfl, hitems⟩ := ihparams (hplain.slot (by simp))
      exact readsFunction hname hitems (fun t ht => ihuses t ht (hplain.slot (by simp_all)))
        (ihbody (hplain.slot (by simp))) fun t ht => ihresult t ht (hplain.slot (by simp_all))
  | method hflags hname _ _ _ _ ihparams ihuses ihbody ihresult =>
      obtain ⟨items, paramsLine, rfl, hitems⟩ := ihparams (hplain.slot (by simp))
      exact readsMethod hflags hname hitems (fun t ht => ihuses t ht (hplain.slot (by simp_all)))
        (fun t ht => ihbody t ht (hplain.slot (by simp_all)))
        fun t ht => ihresult t ht (hplain.slot (by simp_all))
  | names hne _ ih => exact readsNames hne fun t ht => ih t ht (hplain.item ht)
  | @classDef name flags parent interfaces methods line bodyLine hflags hfirst hname _ _ _ ihparent
      ihinterfaces ihmethods =>
      have hbody : (list .stmtList methods bodyLine).Plain := hplain.slot (by simp)
      exact readsClass hflags hfirst hname (fun t ht => ihparent t ht (hplain.slot (by simp_all)))
        (fun t ht => ihinterfaces t ht (hplain.slot (by simp_all)))
        fun t ht => ihmethods t ht (hbody.item ht)
  | _ => exact absurd hplain.kind (by decide)

end Tree

end SnippetRewrite
