import SnippetRewrite.Syntax.Operator

/-!
Kinds of syntax nodes. A node is a leaf, has a fixed number of child slots, is a list of any
length, declares something, or is a capture point of a rule snippet. The kind fixes how many child
slots there are and what they mean.
-/

namespace SnippetRewrite

inductive LeafKind where
  | literal
  | name
deriving DecidableEq, Repr, Inhabited

/-- Kinds with a fixed number of child slots; the comments name the slots. -/
inductive FixedKind where
  /-- name -/
  | var
  /-- left, right -/
  | binary (op : BinaryOp)
  /-- operand -/
  | unary (op : UnaryOp)
  | preInc
  | preDec
  | postInc
  | postDec
  /-- target, value -/
  | assign
  /-- target, value -/
  | assignOp (op : BinaryOp)
  /-- condition, then, else -/
  | conditional
  /-- expression, class -/
  | instanceTest
  /-- callee, arguments -/
  | call
  /-- object, method, arguments -/
  | methodCall
  /-- object, property -/
  | prop
  /-- object, optional index -/
  | dim
  /-- class, arguments -/
  | new
  /-- condition, then, optional else -/
  | ifElse
  /-- condition, body -/
  | whileLoop
  /-- optional start, optional condition, optional step, body -/
  | forLoop
  /-- optional value -/
  | ret
  /-- value -/
  | echo
  /-- name, optional default -/
  | param
deriving DecidableEq, Repr, Inhabited

inductive ListKind where
  | stmtList
  | argList
  | array
  | paramList
  | nameList
  | closureUses
deriving DecidableEq, Repr, Inhabited

inductive DeclKind where
  /-- parameters, optional captured variables, body, optional return type -/
  | function
  /-- parameters, optional captured variables, body, optional return type -/
  | closure
  /-- parameters, optional captured variables, optional body, optional return type -/
  | method
  /-- optional parent, optional interfaces, body -/
  | classDef
deriving DecidableEq, Repr, Inhabited

inductive NodeKind where
  | leaf (kind : LeafKind)
  | fixed (kind : FixedKind)
  | list (kind : ListKind)
  | decl (kind : DeclKind)
  | capture
deriving DecidableEq, Repr, Inhabited

/-- The most child slots a kind with a fixed number of them has. -/
def maxArity : Nat := 4

namespace FixedKind

def arity : FixedKind → Nat
  | var | unary _ | preInc | preDec | postInc | postDec | ret | echo => 1
  | binary _ | assign | assignOp _ | instanceTest | call | prop | dim | new | whileLoop | param => 2
  | conditional | methodCall | ifElse => 3
  | forLoop => 4

/-- Whether the kind stands as a statement without a semicolon added to it. -/
def isStatement : FixedKind → Bool
  | ifElse | whileLoop | forLoop | ret | echo => true
  | _ => false

def text : FixedKind → String
  | var => "Var"
  | binary op => "Binary(" ++ op.symbol ++ ")"
  | unary op => "Unary(" ++ op.symbol ++ ")"
  | preInc => "PreInc"
  | preDec => "PreDec"
  | postInc => "PostInc"
  | postDec => "PostDec"
  | assign => "Assign"
  | assignOp op => "AssignOp(" ++ op.symbol ++ "=)"
  | conditional => "Conditional"
  | instanceTest => "Instanceof"
  | call => "Call"
  | methodCall => "MethodCall"
  | prop => "Prop"
  | dim => "Dim"
  | new => "New"
  | ifElse => "If"
  | whileLoop => "While"
  | forLoop => "For"
  | ret => "Return"
  | echo => "Echo"
  | param => "Param"

end FixedKind

namespace DeclKind

def arity : DeclKind → Nat
  | classDef => 3
  | _ => 4

def text : DeclKind → String
  | function => "FunctionDecl"
  | closure => "ClosureDecl"
  | method => "MethodDecl"
  | classDef => "ClassDecl"

end DeclKind

def LeafKind.text : LeafKind → String
  | literal => "Literal"
  | name => "Name"

def ListKind.text : ListKind → String
  | stmtList => "StmtList"
  | argList => "ArgList"
  | array => "Array"
  | paramList => "ParamList"
  | nameList => "NameList"
  | closureUses => "ClosureUses"

def NodeKind.text : NodeKind → String
  | leaf kind => kind.text
  | fixed kind => kind.text
  | list kind => kind.text
  | decl kind => kind.text
  | capture => "Capture"

/-- Modifier keywords with the bit that stands for each, in the order in which they are written. -/
def modifierKeywords : List (Nat × String) :=
  [(16, "abstract"), (32, "final"), (1, "public"), (2, "protected"), (4, "private"), (8, "static")]

def modifierBit? (keyword : String) : Option Nat :=
  (modifierKeywords.find? fun m => m.2 = keyword).map (·.1)

end SnippetRewrite
