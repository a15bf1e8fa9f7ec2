import SnippetRewrite.Parse.Statement
import SnippetRewrite.Proofs.Syntax.Shape

/-!
The trees of programs. A program is made of parts, and what may stand inside a part depends on what
part it is: an operator has expressions for operands, a class has methods in its body. The relation
below is the grammar of trees; it knows nothing of texts.
-/

namespace SnippetRewrite

def IsIdentifier (sigil : Char) (text : String) : Prop :=
  ∃ first tail, text.toList = first :: tail ∧ isIdentifierStart sigil first = true ∧
    ∀ c ∈ tail, isWordChar c = true

/-- Texts that may stand where a name is required. -/
structure IsName (sigil : Char) (text : String) : Prop where
  identifier : IsIdentifier sigil text
  notKeyword : text ∉ keywords

/-- Names that are no literals where an expression is required. -/
structure IsVariableName (sigil : Char) (text : String) : Prop extends IsName sigil text where
  notLiteral : literalWord? text = none

def Double.IsUnsigned : Double → Prop
  | .finite negative _ _ | .infinite negative => negative = false
  | .nan => False

def Value.IsLiteral : Value → Prop
  | .null | .bool _ | .str _ => True
  | .int n => 0 ≤ n ∧ n ≤ maxInteger
  | .float x => x.IsUnsigned
  | .array _ => False

/-- Kinds whose slots all hold operands, none of them empty. -/
def FixedKind.isOperation : FixedKind → Bool
  | binary _ | unary _ | preInc | preDec | postInc | postDec | assign | conditional
  | instanceTest => true
  | assignOp op => op.hasCompoundForm
  | _ => false

theorem isOperation_of_leadingOperator? {symbol : String} {kind : FixedKind}
    (h : leadingOperator? symbol = some kind) : kind.isOperation ∧ kind.arity = 1 := by
  simp only [leadingOperator?] at h
  split at h <;> cases h <;> exact ⟨rfl, rfl⟩

theorem isOperation_of_assignmentOperator? {symbol : String} {kind : FixedKind}
    (h : assignmentOperator? symbol = some kind) : kind.isOperation ∧ kind.arity = 2 := by
  simp only [assignmentOperator?] at h
  split at h
  · cases h
    exact ⟨rfl, rfl⟩
  · split at h
    · split at h
      · split at h
        · cases h
          exact ⟨‹_›, rfl⟩
        · cases h
      · cases h
    · cases h

inductive Part where
  | name
  | expression
  | arguments
  | param
  | params
  | captured
  | uses
  | result
  | statement
  | block
  | method
  | names
deriving DecidableEq, Repr

/-- The trees that are parts of programs. Lines are free. Flags are those of the six modifier keywords,
and a class has none of them or one of the two with which its declaration can begin. -/
inductive Tree.IsPart (sigil : Char) : Part → Tree → Prop
  | name {text : String} {line : Nat} (h : IsName sigil text) : IsPart sigil .name (.name text line)
  | literal {value : Value} {line : Nat} (h : value.IsLiteral) :
    IsPart sigil .expression (.literal value line)
  | var {text : String} {line : Nat} (h : IsVariableName sigil text) :
    IsPart sigil .expression (.var text line)
  | operation {kind : FixedKind} {operands : List Tree} {line : Nat} (hkind : kind.isOperation)
    (hlen : operands.length = kind.arity) (h : ∀ t ∈ operands, IsPart sigil .expression t) :
    IsPart sigil .expression (.fixed kind (operands.map some) line)
  | dim {object : Tree} {index : Option Tree} {line : Nat} (hobject : IsPart sigil .expression object)
    (hindex : ∀ t ∈ index, IsPart sigil .expression t) :
    IsPart sigil .expression (.fixed .dim [some object, index] line)
  | prop {object member : Tree} {line : Nat} (hobject : IsPart sigil .expression object)
    (hmember : IsPart sigil .name member) :
    IsPart sigil .expression (.fixed .prop [some object, some member] line)
  | methodCall {object member arguments : Tree} {line : Nat}
    (hobject : IsPart sigil .expression object) (hmember : IsPart sigil .name member)
    (harguments : IsPart sigil .arguments arguments) :
    IsPart sigil .expression
      (.fixed .methodCall [some object, some member, some arguments] line)
  | call {callee arguments : Tree} {line : Nat} (hcallee : IsPart sigil .expression callee)
    (harguments : IsPart sigil .arguments arguments) :
    IsPart sigil .expression (.fixed .call [some callee, some arguments] line)
  | callName {text : String} {arguments : Tree} {line nameLine : Nat}
    (h : IsVariableName sigil text) (harray : text ≠ "array")
    (harguments : IsPart sigil .arguments arguments) :
    IsPart sigil .expression (.fixed .call [some (.name text nameLine), some arguments] line)
  | new {name arguments : Tree} {line : Nat} (hname : IsPart sigil .name name)
    (harguments : IsPart sigil .arguments arguments) :
    IsPart sigil .expression (.fixed .new [some name, some arguments] line)
  | array {items : List Tree} {line : Nat} (h : ∀ t ∈ items, IsPart sigil .expression t) :
    IsPart sigil .expression (.list .array items line)
  | closure {params body : Tree} {uses result : Option Tree} {line : Nat}
    (hparams : IsPart sigil .params params) (huses : ∀ t ∈ uses, IsPart sigil .uses t)
    (hbody : IsPart sigil .block body) (hresult : ∀ t ∈ result, IsPart sigil .result t) :
    IsPart sigil .expression
      (.node line (.decl .closure closureName 0) [some params, uses, some body, result])
  | arguments {items : List Tree} {line : Nat} (h : ∀ t ∈ items, IsPart sigil .expression t) :
    IsPart sigil .arguments (.list .argList items line)
  | param {name : Tree} {default : Option Tree} {line : Nat} (hname : IsPart sigil .name name)
    (hdefault : ∀ t ∈ default, IsPart sigil .expression t) :
    IsPart sigil .param (.fixed .param [some name, default] line)
  | params {items : List Tree} {line : Nat} (h : ∀ t ∈ items, IsPart sigil .param t) :
    IsPart sigil .params (.list .paramList items line)
  | captured {text : String} {line : Nat} (h : IsName sigil text) :
    IsPart sigil .captured (.var text line)
  | uses {items : List Tree} {line : Nat} (h : ∀ t ∈ items, IsPart sigil .captured t) :
    IsPart sigil .uses (.list .closureUses items line)
  | result {mark text : String} {line : Nat} (hmark : mark = "" ∨ mark = "?")
    (h : IsName sigil text) : IsPart sigil .result (.name (mark ++ text) line)
  | ofExpression {t : Tree} (h : IsPart sigil .expression t) : IsPart sigil .statement t
  | ofBlock {t : Tree} (h : IsPart sigil .block t) : IsPart sigil .statement t
  | block {items : List Tree} {line : Nat} (h : ∀ t ∈ items, IsPart sigil .statement t) :
    IsPart sigil .block (.list .stmtList items line)
  | ifElse {condition : Tree} {yes no : Option Tree} {line : Nat}
    (hcondition : IsPart sigil .expression condition) (hyes : ∀ t ∈ yes, IsPart sigil .statement t)
    (hno : ∀ t ∈ no, IsPart sigil .statement t) :
    IsPart sigil .statement (.fixed .ifElse [some condition, yes, no] line)
  | whileLoop {condition : Tree} {body : Option Tree} {line : Nat}
    (hcondition : IsPart sigil .expression condition)
    (hbody : ∀ t ∈ body, IsPart sigil .statement t) :
    IsPart sigil .statement (.fixed .whileLoop [some condition, body] line)
  | forLoop {start condition step body : Option Tree} {line : Nat}
    (hstart : ∀ t ∈ start, IsPart sigil .expression t)
    (hcondition : ∀ t ∈ condition, IsPart sigil .expression t)
    (hstep : ∀ t ∈ step, IsPart sigil .expression t)
    (hbody : ∀ t ∈ body, IsPart sigil .statement t) :
    IsPart sigil .statement (.fixed .forLoop [start, condition, step, body] line)
  | ret {value : Option Tree} {line : Nat} (h : ∀ t ∈ value, IsPart sigil .expression t) :
    IsPart sigil .statement (.fixed .ret [value] line)
  | echo {value : Tree} {line : Nat} (h : IsPart sigil .expression value) :
    IsPart sigil .statement (.fixed .echo [some value] line)
  | function {name : String} {params body : Tree} {uses result : Option Tree} {line : Nat}
    (hname : IsName sigil name) (hparams : IsPart sigil .params params)
    (huses : ∀ t ∈ uses, IsPart sigil .uses t) (hbody : IsPart sigil .block body)
    (hresult : ∀ t ∈ result, IsPart sigil .result t) :
    IsPart sigil .statement
      (.node line (.decl .function name 0) [some params, uses, some body, result])
  | method {name : String} {flags : Nat} {params : Tree} {uses body result : Option Tree}
    {line : Nat} (hflags : flags < 64) (hname : IsName sigil name)
    (hparams : IsPart sigil .params params) (huses : ∀ t ∈ uses, IsPart sigil .uses t)
    (hbody : ∀ t ∈ body, IsPart sigil .block t)
    (hresult : ∀ t ∈ result, IsPart sigil .result t) :
    IsPart sigil .method (.node line (.decl .method name flags) [some params, uses, body, result])
  | names {items : List Tree} {line : Nat} (hne : items ≠ [])
    (h : ∀ t ∈ items, IsPart sigil .name t) : IsPart sigil .names (.list .nameList items line)
  | classDef {name : String} {flags : Nat} {parent interfaces : Option Tree} {methods : List Tree}
    {line bodyLine : Nat} (hflags : flags < 64) (hfirst : flags = 0 ∨ flags &&& 48 ≠ 0)
    (hname : IsName sigil name) (hparent : ∀ t ∈ parent, IsPart sigil .name t)
    (hinterfaces : ∀ t ∈ interfaces, IsPart sigil .names t)
    (hmethods : ∀ t ∈ methods, IsPart sigil .method t) :
    IsPart sigil .statement
      (.node line (.decl .classDef name flags)
        [parent, interfaces, some (.list .stmtList methods bodyLine)])

structure Signature.IsPart (sigil : Char) (s : Signature Tree) : Prop where
  params : s.params.IsPart sigil .params
  uses : ∀ t ∈ s.uses, Tree.IsPart sigil .uses t
  result : ∀ t ∈ s.result, Tree.IsPart sigil .result t

namespace Tree

theorem hasShape_fixed {kind : FixedKind} {slots : List (Option Tree)} {line : Nat}
    (hlen : slots.length = kind.arity) (h : ∀ o ∈ slots, ∀ t ∈ o, t.hasShape = true) :
    (fixed kind slots line).hasShape = true :=
  hasShape_node.mpr ⟨fun t ht => h (some t) ht t rfl, fun _ hn => hlen.trans (Option.some.inj hn)⟩

theorem hasShape_decl {kind : DeclKind} {name : String} {flags line : Nat}
    {slots : List (Option Tree)} (hlen : slots.length = kind.arity)
    (h : ∀ o ∈ slots, ∀ t ∈ o, t.hasShape = true) :
    (node line (.decl kind name flags) slots).hasShape = true :=
  hasShape_node.mpr ⟨fun t ht => h (some t) ht t rfl, fun _ hn => hlen.trans (Option.some.inj hn)⟩

theorem hasShape_list {kind : ListKind} {items : List Tree} {line : Nat}
    (h : ∀ t ∈ items, t.hasShape = true) : (list kind items line).hasShape = true :=
  hasShape_node.mpr ⟨fun t ht => h t (by simpa using ht), fun _ hn => by cases hn⟩

theorem hasShape_leaf {kind : LeafKind} {value : Value} {line : Nat} :
    (node line (.leaf kind value) []).hasShape = true :=
  hasShape_node.mpr ⟨by simp, fun _ hn => by cases hn; rfl⟩

theorem hasShape_name (text : String) (line : Nat) : (name text line).hasShape = true :=
  hasShape_leaf

/-- An operation on given operands. -/
theorem IsPart.ofOperands {sigil : Char} {kind : FixedKind} {line : Nat} (operands : List Tree)
    (hkind : kind.isOperation) (hlen : operands.length = kind.arity)
    (h : ∀ t ∈ operands, t.IsPart sigil .expression) :
    (fixed kind (operands.map some) line).IsPart sigil .expression :=
  .operation hkind hlen h

/-- Parts of programs have the children that their kinds ask for. -/
theorem IsPart.hasShape {sigil : Char} {part : Part} {t : Tree} (h : t.IsPart sigil part) :
    t.hasShape = true := by
  induction h with
  | name | literal | result => exact hasShape_leaf
  | var | captured => exact hasShape_fixed rfl (by simp [hasShape_name])
  | operation hkind hlen _ ih => exact hasShape_fixed (by simpa using hlen) (by simpa using ih)
  | callName _ _ _ ih => exact hasShape_fixed rfl (by simp [hasShape_name, ih])
  | array _ ih | arguments _ ih | params _ ih | uses _ ih | block _ ih | names _ _ ih =>
      exact hasShape_list ih
  | ofExpression _ ih | ofBlock _ ih => exact ih
  | classDef _ _ _ _ _ _ ihp ihi ihm =>
      exact hasShape_decl rfl (by simpa [hasShape_list ihm] using ⟨ihp, ihi⟩)
  | _ => first
    | exact hasShape_fixed rfl (by simp_all)
    | exact hasShape_decl rfl (by simp_all)

end Tree

end SnippetRewrite
