import Mathlib.Algebra.Group.Int.Defs
import SnippetRewrite.Proofs.Parse.Parts
import SnippetRewrite.Proofs.Syntax.Equality
import SnippetRewrite.Syntax.Printer

/-!
Formulas: expressions made of literals, variables, operators, calls and the like. Their texts are
given by one equation for each kind of node, in terms of the texts of the operands where these have
to bind at least so tightly.
-/

namespace SnippetRewrite

/-- Literals that are written without a sign and read as they are. -/
def Value.IsPlain : Value → Prop
  | .null | .bool _ | .str _ => True
  | .int n => 0 ≤ n ∧ n < 2 ^ 63
  | _ => False

def commaSeparated (texts : List (List Char)) : List Char :=
  [',', ' '].intercalate texts

namespace Tree

/-- Variables and properties, whose names would be those of functions and methods in front of an
opening parenthesis. -/
def isReference (t : Tree) : Bool :=
  t.label = .fixed .var || t.label = .fixed .prop

/-- Expressions over literals, variables, operators, assignments, arrays, indices, members, objects
and calls. What is called is the name of a function, or a formula that is neither a variable nor a
property. Lines are free. -/
inductive IsFormula : Tree → Prop
  | literal {value : Value} {line : Nat} (h : value.IsPlain) : IsFormula (.literal value line)
  | var {text : String} {line nameLine : Nat} (h : IsVariableName defaultSigil text) :
    IsFormula (.fixed .var [some (.name text nameLine)] line)
  | operation {kind : FixedKind} {operands : List Tree} {line : Nat} (hkind : kind.isOperation)
    (hlen : operands.length = kind.arity) (h : ∀ t ∈ operands, IsFormula t) :
    IsFormula (.fixed kind (operands.map some) line)
  | array {items : List Tree} {line : Nat} (h : ∀ t ∈ items, IsFormula t) :
    IsFormula (.list .array items line)
  | dim {object : Tree} {index : Option Tree} {line : Nat} (hobject : IsFormula object)
    (hindex : ∀ t ∈ index, IsFormula t) : IsFormula (.fixed .dim [some object, index] line)
  | prop {object : Tree} {member : String} {line nameLine : Nat} (hobject : IsFormula object)
    (hmember : IsName defaultSigil member) :
    IsFormula (.fixed .prop [some object, some (.name member nameLine)] line)
  | methodCall {object : Tree} {member : String} {arguments : List Tree}
    {line nameLine argumentLine : Nat} (hobject : IsFormula object)
    (hmember : IsName defaultSigil member) (harguments : ∀ t ∈ arguments, IsFormula t) :
    IsFormula (.fixed .methodCall [some object, some (.name member nameLine),
      some (.list .argList arguments argumentLine)] line)
  | new {className : String} {arguments : List Tree} {line nameLine argumentLine : Nat}
    (hname : IsName defaultSigil className) (harguments : ∀ t ∈ arguments, IsFormula t) :
    IsFormula (.fixed .new
      [some (.name className nameLine), some (.list .argList arguments argumentLine)] line)
  | callName {function : String} {arguments : List Tree} {line nameLine argumentLine : Nat}
    (hname : IsVariableName defaultSigil function) (harray : function ≠ "array")
    (harguments : ∀ t ∈ arguments, IsFormula t) :
    IsFormula (.fixed .call
      [some (.name function nameLine), some (.list .argList arguments argumentLine)] line)
  | call {callee : Tree} {arguments : List Tree} {line argumentLine : Nat}
    (hcallee : IsFormula callee) (hreference : callee.isReference = false)
    (harguments : ∀ t ∈ arguments, IsFormula t) :
    IsFormula (.fixed .call [some callee, some (.list .argList arguments argumentLine)] line)

theorem same_literal {value : Value} (h : value.IsPlain) (m n : Nat) :
    (literal value m).same (literal value n) = true := by
  have hvalue : value.same value = true := by
    rw [Value.same_self]
    cases value <;> first | rfl | exact h.elim
  simp [literal, same, sameSlots, Label.same, hvalue]

/-! ### Texts -/

def chars (t : Tree) : List Char :=
  t.text.toList

def charsAt (t : Tree) (level : Nat) : List Char :=
  (t.printed.expression level).toList

def strength (t : Tree) : Nat :=
  t.label.strength

/-- The characters of a node where an expression must bind at least so tightly. -/
def within (t : Tree) (least level : Nat) : List Char :=
  if t.strength < least then '(' :: t.charsAt level ++ [')'] else t.charsAt level

def itemsChars (items : List Tree) (level : Nat) : List Char :=
  commaSeparated (items.map (·.within Strength.assignment level))

theorem printed_node (line : Nat) (label : Label) (slots : List (Option Tree)) :
    (node line label slots).printed = Printed.ofLabel label (slots.map (Option.map printed)) :=
  fold_node _ line label slots

theorem label_printed (t : Tree) : t.printed.label = t.label := by
  cases t
  rw [printed_node]
  rfl

theorem toList_within (t : Tree) (least level : Nat) :
    (t.printed.within least level).toList = t.within least level := by
  rw [Printed.within, label_printed, within, strength]
  split
  · simp [charsAt, String.toList_append]
  · rfl

theorem toList_itemsText (items : List Tree) (level : Nat) :
    (itemsText (items.map fun t => some t.printed) level).toList = itemsChars items level := by
  have hitems : (items.map fun t => some t.printed).filterMap id = items.map printed := by
    simp [List.filterMap_map]
  rw [itemsText, hitems, String.toList_intercalate, List.map_map, List.map_map, itemsChars]
  exact congrArg commaSeparated (List.map_congr_left fun t _ => toList_within t _ _)

variable {line level : Nat} {a b c : Tree}

theorem printed_name (text : String) (line : Nat) : (name text line).printed.name = text := by
  rw [name, printed_node]
  rfl

theorem printed_list (kind : ListKind) (items : List Tree) (line : Nat) :
    (list kind items line).printed.items level = String.ofList (itemsChars items level) := by
  rw [← toList_itemsText, String.ofList_toList, list, printed_node, List.map_map]
  rfl

/-- The name of a node that is no leaf is its text. -/
theorem toList_name_printed (h : ∀ value, a.label ≠ .leaf .name value) :
    a.printed.name.toList = a.within Strength.postfixed 0 := by
  rw [← toList_within, Printed.name]
  split
  · rename_i value hlabel
    exact absurd ((label_printed a).symm.trans hlabel) (h value)
  · rfl

theorem charsAt_literal (value : Value) (line : Nat) :
    (literal value line).charsAt level = value.text.toList := by
  rw [charsAt, literal, printed_node]
  rfl

theorem charsAt_name (text : String) (line level : Nat) :
    (name text line).charsAt level = text.toList := by
  rw [charsAt, name, printed_node]
  rfl

/-- The text of an operation, from the texts of its operands. -/
theorem charsAt_fixed {kind : FixedKind} {slots : List (Option Tree)}
    (h : controlText (.fixed kind) (slots.map (Option.map printed)) level = none) :
    (fixed kind slots line).charsAt level =
      (operationText kind (slots.map (Option.map printed)) level).toList := by
  rw [charsAt, fixed, printed_node, Printed.ofLabel]
  simp only [h]
  rfl

theorem charsAt_var (text : String) (line nameLine : Nat) :
    (fixed .var [some (name text nameLine)] line).charsAt level = text.toList := by
  rw [charsAt_fixed rfl]
  show (name text nameLine).printed.name.toList = _
  rw [printed_name]

theorem charsAt_binary {op : BinaryOp} (h : op ≠ .pow) :
    (fixed (.binary op) [some a, some b] line).charsAt level =
      a.within op.strength level ++ ' ' :: op.symbol.toList ++
        ' ' :: b.within (op.strength + 1) level := by
  have htext : operationText (.binary op) [some a.printed, some b.printed] level =
      a.printed.within op.strength level ++ " " ++ op.symbol ++ " " ++
        b.printed.within (op.strength + 1) level := by
    cases op <;> first
      | rfl
      | exact absurd rfl h
  rw [charsAt_fixed rfl]
  show (operationText (.binary op) [some a.printed, some b.printed] level).toList = _
  simp [htext, toList_within]

theorem charsAt_power : (fixed (.binary .pow) [some a, some b] line).charsAt level =
    a.within Strength.postfixed level ++
      ' ' :: '*' :: '*' :: ' ' :: b.within Strength.unary level := by
  rw [charsAt_fixed rfl]
  show (a.printed.within Strength.postfixed level ++ " ** " ++
    b.printed.within Strength.unary level).toList = _
  simp [toList_within]

theorem charsAt_leading {symbol : String} {kind : FixedKind}
    (h : leadingOperator? symbol = some kind) : (fixed kind [some a] line).charsAt level =
      (prefixed symbol (String.ofList (a.within Strength.unary level))).toList := by
  have hoperand : String.ofList (a.within Strength.unary level) =
      a.printed.within Strength.unary level := by
    rw [← toList_within, String.ofList_toList]
  unfold leadingOperator? at h
  rw [hoperand]
  split at h <;> cases h
  all_goals exact charsAt_fixed rfl

theorem charsAt_postInc : (fixed .postInc [some a] line).charsAt level =
    a.within Strength.postfixed level ++ ['+', '+'] := by
  rw [charsAt_fixed rfl]
  show (a.printed.within Strength.postfixed level ++ "++").toList = _
  simp [toList_within]

theorem charsAt_postDec : (fixed .postDec [some a] line).charsAt level =
    a.within Strength.postfixed level ++ ['-', '-'] := by
  rw [charsAt_fixed rfl]
  show (a.printed.within Strength.postfixed level ++ "--").toList = _
  simp [toList_within]

theorem charsAt_assign : (fixed .assign [some a, some b] line).charsAt level =
    a.within Strength.postfixed level ++ ' ' :: "=".toList ++
      ' ' :: b.within Strength.assignment level := by
  rw [charsAt_fixed rfl]
  show (a.printed.within Strength.postfixed level ++ " = " ++
    b.printed.within Strength.assignment level).toList = _
  simp [toList_within]

theorem charsAt_assignOp (op : BinaryOp) :
    (fixed (.assignOp op) [some a, some b] line).charsAt level =
    a.within Strength.postfixed level ++ ' ' :: (op.symbol ++ "=").toList ++
      ' ' :: b.within Strength.assignment level := by
  rw [charsAt_fixed rfl]
  show (a.printed.within Strength.postfixed level ++ " " ++ op.symbol ++ "= " ++
    b.printed.within Strength.assignment level).toList = _
  simp [toList_within]

theorem charsAt_conditional : (fixed .conditional [some a, some b, some c] line).charsAt level =
    a.within (Strength.conditional + 1) level ++
      ' ' :: '?' :: ' ' :: b.within Strength.assignment level ++
      ' ' :: ':' :: ' ' :: c.within Strength.conditional level := by
  rw [charsAt_fixed rfl]
  show (a.printed.within (Strength.conditional + 1) level ++ " ? " ++
    b.printed.within Strength.assignment level ++ " : " ++
    c.printed.within Strength.conditional level).toList = _
  simp [toList_within]

theorem charsAt_instanceTest : (fixed .instanceTest [some a, some b] line).charsAt level =
    a.within Strength.instanceTest level ++ " instanceof ".toList ++
      b.within Strength.unary level := by
  rw [charsAt_fixed rfl]
  show (a.printed.within Strength.instanceTest level ++ " instanceof " ++
    b.printed.within Strength.unary level).toList = _
  simp [toList_within]

theorem charsAt_array (items : List Tree) :
    (list .array items line).charsAt level = '[' :: itemsChars items level ++ [']'] := by
  rw [charsAt, list, printed_node, List.map_map]
  show ("[" ++ itemsText (items.map fun t => some t.printed) level ++ "]").toList = _
  simp [toList_itemsText]

theorem charsAt_dim {index : Option Tree} : (fixed .dim [some a, index] line).charsAt level =
    a.within Strength.postfixed level ++
      '[' :: (index.elim [] fun t => t.within Strength.loosest level) ++ [']'] := by
  rw [charsAt_fixed rfl]
  cases index with
  | none =>
      show (a.printed.within Strength.postfixed level ++ "[" ++ "" ++ "]").toList = _
      simp [toList_within]
  | some t =>
      show (a.printed.within Strength.postfixed level ++ "[" ++
        t.printed.within Strength.loosest level ++ "]").toList = _
      simp [toList_within]

theorem charsAt_prop (member : String) (nameLine : Nat) :
    (fixed .prop [some a, some (name member nameLine)] line).charsAt level =
      a.within Strength.postfixed level ++ '-' :: '>' :: member.toList := by
  rw [charsAt_fixed rfl]
  show (a.printed.within Strength.postfixed level ++ "->" ++
    (name member nameLine).printed.name).toList = _
  simp [toList_within, printed_name]

theorem charsAt_methodCall (member : String) (arguments : List Tree) (nameLine argumentLine : Nat) :
    (fixed .methodCall [some a, some (name member nameLine),
      some (list .argList arguments argumentLine)] line).charsAt level =
      a.within Strength.postfixed level ++ '-' :: '>' :: member.toList ++
        '(' :: itemsChars arguments level ++ [')'] := by
  rw [charsAt_fixed rfl]
  show (a.printed.within Strength.postfixed level ++ "->" ++ (name member nameLine).printed.name ++
    "(" ++ (list .argList arguments argumentLine).printed.items level ++ ")").toList = _
  simp [toList_within, printed_name, printed_list]

theorem charsAt_new (className : String) (arguments : List Tree) (nameLine argumentLine : Nat) :
    (fixed .new [some (name className nameLine),
      some (list .argList arguments argumentLine)] line).charsAt level =
      "new ".toList ++ className.toList ++ '(' :: itemsChars arguments level ++ [')'] := by
  rw [charsAt_fixed rfl]
  show ("new " ++ (name className nameLine).printed.name ++ "(" ++
    (list .argList arguments argumentLine).printed.items level ++ ")").toList = _
  simp [printed_name, printed_list]

theorem charsAt_callName (function : String) (arguments : List Tree) (nameLine argumentLine : Nat) :
    (fixed .call [some (name function nameLine),
      some (list .argList arguments argumentLine)] line).charsAt level =
      function.toList ++ '(' :: itemsChars arguments level ++ [')'] := by
  rw [charsAt_fixed rfl]
  show ((name function nameLine).printed.name ++ "(" ++
    (list .argList arguments argumentLine).printed.items level ++ ")").toList = _
  simp [printed_name, printed_list]

theorem charsAt_call (arguments : List Tree) (argumentLine : Nat)
    (h : ∀ value, a.label ≠ .leaf .name value) :
    (fixed .call [some a, some (list .argList arguments argumentLine)] line).charsAt level =
      a.within Strength.postfixed 0 ++ '(' :: itemsChars arguments level ++ [')'] := by
  rw [charsAt_fixed rfl]
  show (a.printed.name ++ "(" ++ (list .argList arguments argumentLine).printed.items level ++
    ")").toList = _
  simp [toList_name_printed h, printed_list]

theorem charsAt_callVariable (text : String) (arguments : List Tree)
    (nameLine variableLine argumentLine : Nat) :
    (fixed .call [some (fixed .var [some (name text nameLine)] variableLine),
      some (list .argList arguments argumentLine)] line).charsAt level =
      text.toList ++ '(' :: itemsChars arguments level ++ [')'] := by
  have hname : (fixed .var [some (name text nameLine)] variableLine).within Strength.postfixed 0 =
      text.toList := charsAt_var text variableLine nameLine
  rw [charsAt_call _ _ (by nofun), hname]

theorem charsAt_callProperty {object : Tree} (member : String) (arguments : List Tree)
    (nameLine memberLine argumentLine : Nat) :
    (fixed .call [some (fixed .prop [some object, some (name member nameLine)] memberLine),
      some (list .argList arguments argumentLine)] line).charsAt level =
      object.within Strength.postfixed 0 ++ '-' :: '>' :: member.toList ++
        '(' :: itemsChars arguments level ++ [')'] := by
  have hmember : (fixed .prop [some object, some (name member nameLine)] memberLine).within
      Strength.postfixed 0 = object.within Strength.postfixed 0 ++ '-' :: '>' :: member.toList :=
    charsAt_prop member nameLine
  rw [charsAt_call _ _ (by nofun), hmember]

end Tree

end SnippetRewrite
