import SnippetRewrite.Syntax.Tree
import SnippetRewrite.Text.Trim

/-!
Printing trees as source text. The text of a node depends on where it stands: as an expression, as
a statement, as a braced block, or as a list of items. All four are computed bottom-up, each from
those of the children; parentheses go only around an expression that binds more loosely than its
place requires.
-/

namespace SnippetRewrite

def indentation (level : Nat) : String :=
  String.ofList (List.replicate (4 * level) ' ')

/-- The keywords of a set of modifier flags, each followed by a blank. -/
def modifiersText (flags : Nat) : String :=
  String.join ((modifierKeywords.filter fun m => flags &&& m.1 ≠ 0).map (·.2 ++ " "))

/-- An operator before its operand. A blank keeps a sign apart from the same sign after it. -/
def prefixed (op operand : String) : String :=
  match op.toList.getLast?, operand.toList.head? with
  | some c, some d =>
    if c = d ∧ (c = '-' ∨ c = '+') then op ++ " " ++ operand else op ++ operand
  | _, _ => op ++ operand

def Label.strength : Label → Nat
  | .fixed (.binary op) => op.strength
  | .fixed .assign | .fixed (.assignOp _) => Strength.assignment
  | .fixed .conditional => Strength.conditional
  | .fixed .instanceTest => Strength.instanceTest
  | .fixed (.unary _) | .fixed .preInc | .fixed .preDec => Strength.unary
  | .fixed .postInc | .fixed .postDec | .fixed .call | .fixed .methodCall | .fixed .prop
  | .fixed .dim => Strength.postfixed
  | .fixed .ifElse | .fixed .whileLoop | .fixed .forLoop | .fixed .ret | .fixed .echo
  | .list .stmtList => Strength.loosest
  | _ => Strength.primary

/-- The texts of a node in the places where it can stand; each takes the indentation level. -/
structure Printed where
  label : Label
  slotCount : Nat
  expression : Nat → String
  statement : Nat → String
  block : Nat → String
  items : Nat → String

namespace Printed

/-- The text of a node where an expression must bind at least so tightly. -/
def within (p : Printed) (least level : Nat) : String :=
  if p.label.strength < least then "(" ++ p.expression level ++ ")" else p.expression level

/-- The text of a branch of a control structure: a block, or one statement. -/
def branch (p : Printed) (level : Nat) : String :=
  if p.label.isStmtList then p.block level else p.statement level

def name (p : Printed) : String :=
  match p.label with
  | .leaf .name value => value.asString?.getD ""
  | _ => p.within Strength.postfixed 0

end Printed

def slotAt (slots : List (Option Printed)) (index : Nat) : Option Printed :=
  slots[index]?.join

namespace Slots

/-- The expression in a slot; nothing for an empty one. -/
def expression (slots : List (Option Printed)) (index least level : Nat) : String :=
  match slotAt slots index with
  | some p => p.within least level
  | none => ""

/-- The expression in a slot at the outermost level of indentation. -/
def clause (slots : List (Option Printed)) (index : Nat) : String :=
  expression slots index Strength.loosest 0

/-- The branch in a slot; a lone semicolon for an empty one. -/
def branch (slots : List (Option Printed)) (index level : Nat) : String :=
  match slotAt slots index with
  | some p => p.branch level
  | none => ";"

def name (slots : List (Option Printed)) (index : Nat) : String :=
  match slotAt slots index with
  | some p => p.name
  | none => ""

def items (slots : List (Option Printed)) (index level : Nat) : String :=
  match slotAt slots index with
  | some p => p.items level
  | none => ""

/-- The block in a slot; an empty block for an empty slot. -/
def block (slots : List (Option Printed)) (index level : Nat) : String :=
  match slotAt slots index with
  | some p => p.block level
  | none => "\x7b\x7d"

end Slots

open Slots

def blockText (slots : List (Option Printed)) (level : Nat) : String :=
  match slots.filterMap id with
  | [] => "\x7b\x7d"
  | statements =>
    "\x7b\n"
      ++ String.join (statements.map fun p =>
        indentation (level + 1) ++ p.statement (level + 1) ++ "\n")
      ++ indentation level ++ "\x7d"

def itemsText (slots : List (Option Printed)) (level : Nat) : String :=
  String.intercalate ", " ((slots.filterMap id).map fun p => p.within Strength.assignment level)

def signatureText (slots : List (Option Printed)) (level : Nat) : String :=
  let uses :=
    match slotAt slots 1 with
    | some p => if p.slotCount = 0 then "" else " use (" ++ p.items level ++ ")"
    | none => ""
  let result :=
    match slotAt slots 3 with
    | some p => ": " ++ p.name
    | none => ""
  "(" ++ items slots 0 level ++ ")" ++ uses ++ result

/-- The text of a node that is a statement by itself; none for an expression. -/
def controlText (label : Label) (slots : List (Option Printed)) (level : Nat) : Option String :=
  match label with
  | .list .stmtList => some (blockText slots level)
  | .fixed .ifElse =>
    let otherwise :=
      match slotAt slots 2 with
      | some p => " else " ++ p.branch level
      | none => ""
    some ("if (" ++ clause slots 0 ++ ") " ++ branch slots 1 level ++ otherwise)
  | .fixed .whileLoop => some ("while (" ++ clause slots 0 ++ ") " ++ branch slots 1 level)
  | .fixed .forLoop =>
    let header := clause slots 0 ++ "; " ++ clause slots 1 ++ "; " ++ clause slots 2
    some ("for (" ++ String.ofList (trimEnd header.toList) ++ ") " ++ branch slots 3 level)
  | .fixed .ret =>
    some (match slotAt slots 0 with
      | some p => "return " ++ p.within Strength.loosest level ++ ";"
      | none => "return;")
  | .fixed .echo => some ("echo " ++ clause slots 0 ++ ";")
  | .decl .classDef name flags =>
    let parent :=
      match slotAt slots 0 with
      | some p => " extends " ++ p.name
      | none => ""
    let interfaces :=
      match items slots 1 level with
      | "" => ""
      | names => " implements " ++ names
    some (modifiersText flags ++ "class " ++ name ++ parent ++ interfaces ++ " "
      ++ block slots 2 level)
  | .decl .function name flags | .decl .method name flags =>
    let body :=
      match slotAt slots 2 with
      | some p => " " ++ p.block level
      | none => ";"
    some (modifiersText flags ++ "function " ++ name ++ signatureText slots level ++ body)
  | _ => none

def operationText (kind : FixedKind) (slots : List (Option Printed)) (level : Nat) : String :=
  let child (index least : Nat) := expression slots index least level
  match kind with
  | .var => name slots 0
  | .binary .pow => child 0 Strength.postfixed ++ " ** " ++ child 1 Strength.unary
  | .binary op => child 0 op.strength ++ " " ++ op.symbol ++ " " ++ child 1 (op.strength + 1)
  | .unary op => prefixed op.symbol (child 0 Strength.unary)
  | .preInc => prefixed "++" (child 0 Strength.unary)
  | .preDec => prefixed "--" (child 0 Strength.unary)
  | .postInc => child 0 Strength.postfixed ++ "++"
  | .postDec => child 0 Strength.postfixed ++ "--"
  | .assign => child 0 Strength.postfixed ++ " = " ++ child 1 Strength.assignment
  | .assignOp op =>
    child 0 Strength.postfixed ++ " " ++ op.symbol ++ "= " ++ child 1 Strength.assignment
  | .conditional =>
    child 0 (Strength.conditional + 1) ++ " ? " ++ child 1 Strength.assignment ++ " : "
      ++ child 2 Strength.conditional
  | .instanceTest => child 0 Strength.instanceTest ++ " instanceof " ++ child 1 Strength.unary
  | .call => name slots 0 ++ "(" ++ items slots 1 level ++ ")"
  | .methodCall =>
    child 0 Strength.postfixed ++ "->" ++ name slots 1 ++ "(" ++ items slots 2 level ++ ")"
  | .prop => child 0 Strength.postfixed ++ "->" ++ name slots 1
  | .dim => child 0 Strength.postfixed ++ "[" ++ child 1 Strength.loosest ++ "]"
  | .new => "new " ++ name slots 0 ++ "(" ++ items slots 1 level ++ ")"
  | .param =>
    match slotAt slots 1 with
    | some p => name slots 0 ++ " = " ++ p.within Strength.assignment level
    | none => name slots 0
  | .ifElse | .whileLoop | .forLoop | .ret | .echo => ""

def expressionText (label : Label) (slots : List (Option Printed)) (level : Nat) : String :=
  match label with
  | .leaf .name value => value.asString?.getD ""
  | .leaf .literal value => value.text
  | .capture name => "$" ++ name
  | .list .array => "[" ++ itemsText slots level ++ "]"
  | .list _ => itemsText slots level
  | .decl _ _ _ => "function " ++ signatureText slots level ++ " " ++ block slots 2 level
  | .fixed kind => operationText kind slots level

def Printed.ofLabel (label : Label) (slots : List (Option Printed)) : Printed where
  label := label
  slotCount := slots.length
  expression level :=
    match controlText label slots level with
    | some text => text
    | none => expressionText label slots level
  statement level :=
    match controlText label slots level with
    | some text => text
    | none => expressionText label slots level ++ ";"
  block := blockText slots
  items := itemsText slots

namespace Tree

def printed (t : Tree) : Printed :=
  t.fold fun _ label slots => Printed.ofLabel label slots

def text (t : Tree) : String :=
  t.printed.expression 0

def programText (t : Tree) : String :=
  String.intercalate "\n" (t.children.map fun s => s.printed.statement 0)

end Tree

end SnippetRewrite
