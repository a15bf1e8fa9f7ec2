import SnippetRewrite.Proofs.Syntax.Formula

/-!
Texts of statements and declarations, given by one equation for each kind of node. Statements in a
block stand on lines of their own, one level deeper than the braces around them; conditions and the
headers of loops are written as if they stood at the outermost level.
-/

namespace SnippetRewrite

/-! ### Blanks at the end -/

/-- Texts that end in a character that is no blank. -/
def Solid (x : List Char) : Prop :=
  ∃ w d, x = w ++ [d] ∧ isBlank d = false

theorem Solid.append {y : List Char} (h : Solid y) (x : List Char) : Solid (x ++ y) := by
  obtain ⟨w, d, rfl, hd⟩ := h
  exact ⟨x ++ w, d, (List.append_assoc ..).symm, hd⟩

theorem Solid.cons {y : List Char} (h : Solid y) (d : Char) : Solid (d :: y) :=
  h.append [d]

theorem Solid.of_last {d : Char} (hd : isBlank d = false) (x : List Char) : Solid (x ++ [d]) :=
  ⟨x, d, rfl, hd⟩

/-- Characters of words are no blanks. -/
theorem isBlank_of_isWordChar {d : Char} (h : isWordChar d = true) : isBlank d = false := by
  have hnone : ∀ r ∈ blankRanges, ∀ n ∈ List.range' r.1 (r.2 + 1 - r.1),
      isWordChar (Char.ofNat n) = false := by decide +kernel
  rw [isBlank, inRanges, List.any_eq_false]
  intro r hr hin
  simp only [Bool.and_eq_true, decide_eq_true_eq] at hin
  have hword := hnone r hr d.toNat (List.mem_range'_1.mpr ⟨hin.1, by omega⟩)
  rw [Char.ofNat_toNat, h] at hword
  cases hword

theorem trimEnd_append {x gap : List Char} (h : Solid x) (hgap : ∀ d ∈ gap, isBlank d = true) :
    trimEnd (x ++ gap) = x := by
  obtain ⟨w, d, rfl, hd⟩ := h
  have hdrop : (gap.reverse ++ d :: w.reverse).dropWhile isBlank = d :: w.reverse := by
    rw [List.dropWhile_append_of_pos (by simpa using hgap)]
    simp [hd]
  rw [trimEnd]
  simp [hdrop]

def forHeader (x y z : List Char) (step : Option Tree) : List Char :=
  x ++ ';' :: ' ' :: (y ++ ';' :: ((step.elim [] fun _ => [' ']) ++ z))

/-- A blank in front of a missing step is left out. -/
theorem trimEnd_header {x y z : List Char} {step : Option Tree} (hnone : step = none → z = [])
    (hsome : step ≠ none → Solid z) :
    trimEnd (x ++ "; ".toList ++ y ++ "; ".toList ++ z) = forHeader x y z step := by
  cases step with
  | none =>
      have hgap : ∀ d ∈ [' '], isBlank d = true := List.forall_mem_singleton.mpr (by decide)
      have htrim := trimEnd_append (.of_last (d := ';') (by decide) (x ++ "; ".toList ++ y)) hgap
      rw [hnone rfl]
      simpa [forHeader] using htrim
  | some step =>
      have hsolid := (hsome (Option.some_ne_none step)).append (x ++ "; ".toList ++ y ++ "; ".toList)
      have htrim := trimEnd_append hsolid (List.forall_mem_nil _)
      simpa [forHeader] using htrim

namespace Tree

def statementAt (t : Tree) (level : Nat) : List Char :=
  (t.printed.statement level).toList

def blockAt (t : Tree) (level : Nat) : List Char :=
  (t.printed.block level).toList

/-- The characters of a branch; a lone semicolon where it is missing. -/
def branchAt (o : Option Tree) (level : Nat) : List Char :=
  o.elim [';'] (·.statementAt level)

variable {t a condition : Tree} {yes no body o : Option Tree} {line level : Nat}

theorem toList_branch (t : Tree) (level : Nat) :
    (t.printed.branch level).toList = t.statementAt level := by
  obtain ⟨line, label, slots⟩ := t
  rw [Printed.branch, label_printed, statementAt]
  split
  · rename_i h
    rw [printed_node]
    cases label with
    | list kind =>
        cases kind with
        | stmtList => rfl
        | _ => cases h
    | _ => cases h
  · rfl

theorem within_loosest (t : Tree) (level : Nat) : t.within Strength.loosest level = t.charsAt level :=
  if_neg (Nat.not_lt_zero _)

variable {slots : List (Option Printed)} {index : Nat}

theorem toList_clause (h : slotAt slots index = o.map printed) :
    (Slots.clause slots index).toList = o.elim [] (·.charsAt 0) := by
  rw [Slots.clause, Slots.expression, h]
  cases o with
  | none => rfl
  | some t => exact (toList_within t _ _).trans (within_loosest t 0)

theorem toList_branchIn (h : slotAt slots index = o.map printed) :
    (Slots.branch slots index level).toList = branchAt o level := by
  rw [Slots.branch, h]
  cases o with
  | none => simp [branchAt]
  | some t => exact toList_branch t level

/-- The text of a node that is a statement by itself. -/
theorem statementAt_control {label : Label} {slots : List (Option Tree)} {text : String}
    (h : controlText label (slots.map (Option.map printed)) level = some text) :
    (node line label slots).statementAt level = text.toList := by
  rw [statementAt, printed_node, Printed.ofLabel]
  simp only [h]

/-- An expression is written as a statement with a semicolon behind it. -/
theorem statementAt_expression (h : ∀ slots, controlText t.label slots level = none) :
    t.statementAt level = t.charsAt level ++ [';'] := by
  obtain ⟨line, label, slots⟩ := t
  have hnone : controlText label (slots.map (Option.map printed)) level = none := h _
  rw [statementAt, charsAt, printed_node, Printed.ofLabel]
  simp only [hnone]
  exact String.toList_append

/-! ### Control structures -/

theorem statementAt_ifElse : (fixed .ifElse [some condition, yes, no] line).statementAt level =
    "if (".toList ++ condition.charsAt 0 ++ ") ".toList ++ branchAt yes level ++
      (no.elim [] fun t => " else ".toList ++ t.statementAt level) := by
  have hcondition : (Slots.clause ([some condition, yes, no].map (Option.map printed)) 0).toList =
      condition.charsAt 0 := toList_clause (o := some condition) rfl
  have hyes : (Slots.branch ([some condition, yes, no].map (Option.map printed)) 1 level).toList =
      branchAt yes level := toList_branchIn rfl
  rw [fixed, statementAt_control rfl, String.toList_append, String.toList_append,
    String.toList_append, String.toList_append, hcondition, hyes]
  refine congrArg _ ?_
  cases no with
  | none => rfl
  | some t => exact String.toList_append.trans (congrArg _ (toList_branch t level))

theorem statementAt_whileLoop : (fixed .whileLoop [some condition, body] line).statementAt level =
    "while (".toList ++ condition.charsAt 0 ++ ") ".toList ++ branchAt body level := by
  have hcondition : (Slots.clause ([some condition, body].map (Option.map printed)) 0).toList =
      condition.charsAt 0 := toList_clause (o := some condition) rfl
  have hbody : (Slots.branch ([some condition, body].map (Option.map printed)) 1 level).toList =
      branchAt body level := toList_branchIn rfl
  rw [fixed, statementAt_control rfl, String.toList_append, String.toList_append,
    String.toList_append, hcondition, hbody]

theorem statementAt_forLoop {start test step : Option Tree} (h : ∀ t ∈ step, Solid (t.charsAt 0)) :
    (fixed .forLoop [start, test, step, body] line).statementAt level =
      "for (".toList ++ forHeader (start.elim [] (·.charsAt 0)) (test.elim [] (·.charsAt 0))
        (step.elim [] (·.charsAt 0)) step ++ ") ".toList ++ branchAt body level := by
  have hclause (index : Nat) (o : Option Tree)
      (hslot : slotAt ([start, test, step, body].map (Option.map printed)) index = o.map printed) :
      (Slots.clause ([start, test, step, body].map (Option.map printed)) index).toList =
        o.elim [] (·.charsAt 0) := toList_clause hslot
  have hbody : (Slots.branch ([start, test, step, body].map (Option.map printed)) 3 level).toList =
      branchAt body level := toList_branchIn rfl
  have hnone : step = none → step.elim [] (·.charsAt 0) = [] := by
    rintro rfl
    rfl
  have hsome : step ≠ none → Solid (step.elim [] (·.charsAt 0)) := by
    intro hne
    obtain ⟨t, ht⟩ := Option.ne_none_iff_exists'.mp hne
    rw [ht]
    exact h t ht
  rw [fixed, statementAt_control rfl, String.toList_append, String.toList_append,
    String.toList_append, String.toList_ofList, String.toList_append, String.toList_append,
    String.toList_append, String.toList_append, hclause 0 start rfl, hclause 1 test rfl,
    hclause 2 step rfl, hbody, trimEnd_header hnone hsome, String.toList_ofList]

theorem statementAt_ret : (fixed .ret [o] line).statementAt level =
    "return".toList ++ (o.elim [] fun _ => [' ']) ++ o.elim [] (·.charsAt level) ++ [';'] := by
  rw [fixed, statementAt_control rfl]
  cases o with
  | none =>
      show "return;".toList = _
      simp
  | some t =>
      show ("return " ++ t.printed.within Strength.loosest level ++ ";").toList = _
      simp [toList_within, within_loosest]

theorem statementAt_echo : (fixed .echo [some a] line).statementAt level =
    "echo ".toList ++ a.charsAt 0 ++ [';'] := by
  have hvalue : (Slots.clause ([some a].map (Option.map printed)) 0).toList = a.charsAt 0 :=
    toList_clause (o := some a) rfl
  rw [fixed, statementAt_control rfl, String.toList_append, String.toList_append, hvalue]
  rfl

/-! ### Blocks -/

def blockBody (items : List Tree) (level : Nat) : List Char :=
  match items with
  | [] => []
  | _ =>
    '\n' :: (items.flatMap fun t =>
      (indentation (level + 1)).toList ++ t.statementAt (level + 1) ++ ['\n'])
      ++ (indentation level).toList

theorem blockAt_list (kind : ListKind) (items : List Tree) :
    (list kind items line).blockAt level = '\x7b' :: blockBody items level ++ ['\x7d'] := by
  have hitems : ((items.map some).map (Option.map printed)).filterMap id = items.map printed := by
    rw [List.map_map, List.filterMap_map]
    exact congrFun List.filterMap_eq_map items
  rw [blockAt, list, printed_node]
  show (blockText ((items.map some).map (Option.map printed)) level).toList = _
  rw [blockText, hitems]
  cases items with
  | nil => simp [blockBody]
  | cons t items =>
      simp [blockBody, statementAt, List.flatMap_map]

theorem statementAt_block (items : List Tree) :
    (list .stmtList items line).statementAt level = (list .stmtList items line).blockAt level := by
  rw [list, statementAt_control rfl, blockAt, printed_node]
  rfl

/-! ### Declarations -/

/-- The characters of a parameter with its default. -/
theorem charsAt_param {text : String} {nameLine : Nat} {default : Option Tree} :
    (fixed .param [some (name text nameLine), default] line).charsAt level =
      text.toList ++ (default.elim [] fun t => " = ".toList ++ t.within Strength.assignment level) := by
  rw [charsAt_fixed rfl]
  cases default with
  | none =>
      show (name text nameLine).printed.name.toList = _
      rw [printed_name]
      simp
  | some t =>
      show ((name text nameLine).printed.name ++ " = " ++
        t.printed.within Strength.assignment level).toList = _
      simp [printed_name, toList_within]

def usesAt (uses : Option Tree) (level : Nat) : List Char :=
  match uses with
  | some t => if t.slots.isEmpty then [] else
    " use (".toList ++ (t.printed.items level).toList ++ [')']
  | none => []

def resultAt (result : Option Tree) : List Char :=
  result.elim [] fun t => ": ".toList ++ t.printed.name.toList

def signatureAt (params : List Tree) (uses result : Option Tree) (level : Nat) : List Char :=
  '(' :: itemsChars params level ++ ')' :: (usesAt uses level ++ resultAt result)

variable {params : List Tree} {uses result : Option Tree} {paramsLine flags : Nat}

theorem slotCount_printed (t : Tree) : t.printed.slotCount = t.slots.length := by
  obtain ⟨line, label, slots⟩ := t
  rw [printed_node]
  exact List.length_map ..

/-- The text of a part that may be missing. -/
def clauseText (o : Option Printed) (missing : String) (text : Printed → String) : String :=
  match o with
  | some p => text p
  | none => missing

theorem toList_signatureText :
    (signatureText ([some (list .paramList params paramsLine), uses, body, result].map
      (Option.map printed)) level).toList = signatureAt params uses result level := by
  have huses : (clauseText (uses.map printed) "" fun p =>
      if p.slotCount = 0 then "" else " use (" ++ p.items level ++ ")").toList =
        usesAt uses level := by
    cases uses with
    | none => rfl
    | some t =>
        show (if t.printed.slotCount = 0 then "" else
          " use (" ++ t.printed.items level ++ ")").toList = _
        rw [usesAt, slotCount_printed]
        cases t.slots <;> simp
  have hresult : (clauseText (result.map printed) "" fun p => ": " ++ p.name).toList =
      resultAt result := by
    cases result <;> simp [clauseText, resultAt]
  have hparams : (list .paramList params paramsLine).printed.items level =
      String.ofList (itemsChars params level) := printed_list ..
  rw [signatureAt, ← huses, ← hresult]
  show ("(" ++ (list .paramList params paramsLine).printed.items level ++ ")" ++
    (clauseText (uses.map printed) "" fun p =>
      if p.slotCount = 0 then "" else " use (" ++ p.items level ++ ")") ++
    (clauseText (result.map printed) "" fun p => ": " ++ p.name)).toList = _
  rw [hparams]
  simp only [String.toList_append, String.toList_ofList, List.append_assoc]
  rfl

/-- The characters of a function with its modifiers. -/
theorem statementAt_function {kind : DeclKind} (hkind : kind = .function ∨ kind = .method)
    (name : String) : (node line (.decl kind name flags)
      [some (list .paramList params paramsLine), uses, body, result]).statementAt level =
    (modifiersText flags).toList ++ "function ".toList ++ name.toList ++
      signatureAt params uses result level ++ body.elim [';'] fun t => ' ' :: t.blockAt level := by
  have hbody : (clauseText (body.map printed) ";" fun p => " " ++ p.block level).toList =
      body.elim [';'] fun t => ' ' :: t.blockAt level := by
    cases body <;> simp [clauseText, blockAt]
  have htext : controlText (.decl kind name flags) ([some (list .paramList params paramsLine), uses,
      body, result].map (Option.map printed)) level =
      some (modifiersText flags ++ "function " ++ name ++ signatureText ([some (list .paramList params
        paramsLine), uses, body, result].map (Option.map printed)) level ++
        clauseText (body.map printed) ";" fun p => " " ++ p.block level) := by
    rcases hkind with rfl | rfl <;> rfl
  rw [statementAt_control htext, String.toList_append, String.toList_append, String.toList_append,
    String.toList_append, toList_signatureText, hbody]

theorem charsAt_closure {closed : Tree} (name : String) : (node line (.decl .closure name flags)
      [some (list .paramList params paramsLine), uses, some closed, result]).charsAt level =
    "function ".toList ++ signatureAt params uses result level ++ ' ' :: closed.blockAt level := by
  have htext : ((node line (.decl .closure name flags) [some (list .paramList params paramsLine), uses,
      some closed, result]).printed.expression level) = "function " ++ signatureText ([some (list
        .paramList params paramsLine), uses, some closed, result].map (Option.map printed)) level ++
        " " ++ closed.printed.block level := by
    rw [printed_node]
    rfl
  rw [charsAt, htext, String.toList_append, String.toList_append, String.toList_append,
    toList_signatureText]
  simp [blockAt]

/-- The clause of a class for the names of its interfaces. -/
def implementsText : String → String
  | "" => ""
  | names => " implements " ++ names

theorem implementsText_of_ne {names : String} (h : names ≠ "") :
    implementsText names = " implements " ++ names := by
  unfold implementsText
  split
  · exact absurd rfl h
  · rfl

def interfacesAt (interfaces : Option Tree) (level : Nat) : List Char :=
  interfaces.elim [] fun t => " implements ".toList ++ (t.printed.items level).toList

/-- The characters of a class with its modifiers. -/
theorem statementAt_class {parent interfaces : Option Tree} {closed : Tree} (name : String)
    (h : ∀ t ∈ interfaces, t.printed.items level ≠ "") :
    (node line (.decl .classDef name flags) [parent, interfaces, some closed]).statementAt level =
      (modifiersText flags).toList ++ "class ".toList ++ name.toList ++
        (parent.elim [] fun t => " extends ".toList ++ t.printed.name.toList) ++
        interfacesAt interfaces level ++ ' ' :: closed.blockAt level := by
  have hparent : (clauseText (parent.map printed) "" fun p => " extends " ++ p.name).toList =
      parent.elim [] fun t => " extends ".toList ++ t.printed.name.toList := by
    cases parent <;> simp [clauseText]
  have hinterfaces : (implementsText (Slots.items ([parent, interfaces, some closed].map
      (Option.map printed)) 1 level)).toList = interfacesAt interfaces level := by
    cases interfaces with
    | none => rfl
    | some t =>
        show (implementsText (t.printed.items level)).toList = _
        rw [implementsText_of_ne (h t rfl)]
        exact String.toList_append
  rw [statementAt_control rfl, ← hparent, ← hinterfaces]
  simp only [String.toList_append, List.append_assoc]
  rfl

end Tree

end SnippetRewrite
