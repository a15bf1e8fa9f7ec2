import SnippetRewrite.Parse.Expression

/-!
Statements and declarations, and whole programs.
-/

namespace SnippetRewrite

namespace Grammar

variable {m : Type → Type} {ν : Type} [Monad m] [MonadExceptOf SyntaxFailure m] [Nodes m ν]

def condition (g : Grammar m ν) : Reader m ν := do
  Reader.expectSymbol "("
  let condition ← g.expression
  Reader.expectSymbol ")"
  pure condition

/-- Everything behind `if` or `elseif`, with at most so many `elseif`. -/
def ifElseWithin (g : Grammar m ν) : Nat → Nat → Reader m ν
  | 0, _ => Reader.fail .nesting
  | fuel + 1, line => do
    let condition ← g.condition
    let yes ← g.statement
    if ← Reader.acceptWord "elseif" then
      let no ← ifElseWithin g fuel (← Reader.here)
      Nodes.fixed .ifElse [some condition, yes, some no] line
    else
      let no ← if ← Reader.acceptWord "else" then g.statement else pure none
      Nodes.fixed .ifElse [some condition, yes, no] line

def whileLoop (g : Grammar m ν) (line : Nat) : Reader m ν := do
  let condition ← g.condition
  let body ← g.statement
  Nodes.fixed .whileLoop [some condition, body] line

def forLoop (g : Grammar m ν) (line : Nat) : Reader m ν := do
  Reader.expectSymbol "("
  let start ← g.optionalExpression ";"
  Reader.expectSymbol ";"
  let condition ← g.optionalExpression ";"
  Reader.expectSymbol ";"
  let step ← g.optionalExpression ")"
  Reader.expectSymbol ")"
  let body ← g.statement
  Nodes.fixed .forLoop [start, condition, step, body] line

def returnStatement (g : Grammar m ν) (line : Nat) : Reader m ν := do
  let value ← g.optionalExpression ";"
  Reader.expectSymbol ";"
  Nodes.fixed .ret [value] line

def echoStatement (g : Grammar m ν) (line : Nat) : Reader m ν := do
  let value ← g.expression
  Reader.expectSymbol ";"
  Nodes.fixed .echo [some value] line

def expressionStatement (g : Grammar m ν) : Reader m ν := do
  let value ← g.expression
  Reader.expectSymbol ";"
  pure value

def functionDeclaration (g : Grammar m ν) (line : Nat) : Reader m ν := do
  let name ← g.identifier
  let signature ← g.signature line
  let body ← g.block
  Nodes.decl .function name 0 (signature.slots (some body)) line

/-- A method; one without a body ends in a semicolon. -/
def method (g : Grammar m ν) : Reader m ν := do
  let line ← Reader.here
  let flags ← g.modifiers
  unless ← Reader.acceptWord "function" do
    Reader.fail .method
  let name ← g.identifier
  let signature ← g.signature line
  let body ← if ← Reader.acceptSymbol ";" then pure none else some <$> g.block
  Nodes.decl .method name flags (signature.slots body) line

def methodsWithin (g : Grammar m ν) : Nat → Reader m (List ν)
  | 0 => Reader.fail .nesting
  | fuel + 1 => do
    if ← Reader.acceptSymbol "\x7d" then pure []
    else
      let first ← g.method
      pure (first :: (← methodsWithin g fuel))

def namesWithin (g : Grammar m ν) : Nat → Reader m (List ν)
  | 0 => Reader.fail .nesting
  | fuel + 1 => do
    let first ← g.nameLeaf
    if ← Reader.acceptSymbol "," then pure (first :: (← namesWithin g fuel)) else pure [first]

def classDeclaration (g : Grammar m ν) (line : Nat) : Reader m ν := do
  let flags ← g.modifiers
  unless ← Reader.acceptWord "class" do
    Reader.fail .classKeyword
  let name ← g.identifier
  let parent ← if ← Reader.acceptWord "extends" then some <$> g.nameLeaf else pure none
  let interfaces ←
    if ← Reader.acceptWord "implements" then
      some <$> Nodes.list .nameList (← g.namesWithin g.bound) line
    else pure none
  let bodyLine ← Reader.here
  Reader.expectSymbol "\x7b"
  let body ← Nodes.list .stmtList (← g.methodsWithin g.bound) bodyLine
  Nodes.decl .classDef name flags [parent, interfaces, some body] line

def peekIdentifier (g : Grammar m ν) (c : Cursor) : Bool :=
  ((Reader.identifier g.sigil : PlainReader String) c).isOk

/-- A statement that begins with a word or an operator. -/
def plainStatement (g : Grammar m ν) (line : Nat) : Reader m ν := do
  match (← get).word? with
  | none => g.expressionStatement
  | some (word, next) =>
    match word with
    | "if" => set next; g.ifElseWithin g.bound line
    | "while" => set next; g.whileLoop line
    | "for" => set next; g.forLoop line
    | "return" => set next; g.returnStatement line
    | "echo" => set next; g.echoStatement line
    | "function" =>
      if g.peekIdentifier next then
        set next
        g.functionDeclaration line
      else g.expressionStatement
    | "class" | "abstract" | "final" => g.classDeclaration line
    | _ => g.expressionStatement

/-- A statement; none for a lone semicolon. -/
def anyStatement (g : Grammar m ν) : Reader m (Option ν) := do
  let line ← Reader.here
  if ← Reader.acceptSymbol ";" then pure none
  else
    match (← get).rest with
    | '\x7b' :: _ => some <$> g.block
    | _ => some <$> g.plainStatement line

/-- Statements up to the end of the text or a closing tag, at most so many. -/
def programStatementsWithin (g : Grammar m ν) : Nat → Reader m (List ν)
  | 0 => Reader.fail .nesting
  | fuel + 1 => do
    modify Cursor.skip
    match (← get).rest with
    | [] => pure []
    | '?' :: '>' :: _ => pure []
    | _ =>
      let first ← g.statement
      pure (first.toList ++ (← programStatementsWithin g fuel))

/-- Skips separators and, if it comes next, a tag. -/
def optionalTag (tag : String) : Reader m Unit := do
  let c := (← get).skip
  set ((c.past? tag.toList).getD c)

def program (g : Grammar m ν) : Reader m ν := do
  optionalTag "<?php"
  let statements ← g.programStatementsWithin g.bound
  optionalTag "?>"
  modify Cursor.skip
  match (← get).rest with
  | [] => Nodes.list .stmtList statements 1
  | _ => Reader.fail .statement

/-- The grammar for texts that nest at most so deep. -/
def ofDepth (sigil : Char) (bound : Nat) : Nat → Grammar m ν
  | 0 =>
    { sigil, bound
      expression := Reader.fail .nesting
      conditional := Reader.fail .nesting
      operand := Reader.fail .nesting
      statement := Reader.fail .nesting }
  | depth + 1 =>
    { sigil, bound
      expression := fun c => assignment (ofDepth sigil bound depth) c
      conditional := fun c => choice (ofDepth sigil bound depth) c
      operand := fun c => unary (ofDepth sigil bound depth) c
      statement := fun c => anyStatement (ofDepth sigil bound depth) c }

@[simp] theorem sigil_ofDepth (sigil : Char) (bound depth : Nat) :
    (ofDepth sigil bound depth : Grammar m ν).sigil = sigil := by
  cases depth <;> rfl

@[simp] theorem bound_ofDepth (sigil : Char) (bound depth : Nat) :
    (ofDepth sigil bound depth : Grammar m ν).bound = bound := by
  cases depth <;> rfl

/-- The grammar for a text of a given length: from a statement to the expression at its start, and
from there past at least one character, are two levels. -/
def ofLength (sigil : Char) (length : Nat) : Grammar m ν :=
  ofDepth sigil (length + 1) (2 * length + 2)

end Grammar

def readProgram (sigil : Char) (source : List Char) : Except SyntaxFailure Tree :=
  ((Grammar.ofLength sigil source.length : TreeGrammar).program (Cursor.start source)).map (·.1)

end SnippetRewrite
