import SnippetRewrite.Parse.Signature

/-!
Expressions, from the tightest binding to the loosest: primary expressions, what follows them, the
power, operators before their operand, class tests, ten levels of binary operators, the
conditional, and assignments.
-/

namespace SnippetRewrite

def closureName : String := "\x7bclosure\x7d"

/-- The value of a word that is a literal in any mixture of cases. -/
def literalWord? (word : String) : Option Value :=
  match String.ofList (word.toList.map Char.toLower) with
  | "true" => some (.bool true)
  | "false" => some (.bool false)
  | "null" => some .null
  | _ => none

def binaryOperator? (level : Nat) (symbol : String) : Option BinaryOp :=
  match BinaryOp.ofSymbol? symbol with
  | some op => if op ≠ .pow ∧ op.strength = level then some op else none
  | none => none

def leadingOperator? : String → Option FixedKind
  | "!" => some (.unary .not)
  | "-" => some (.unary .neg)
  | "+" => some (.unary .plus)
  | "~" => some (.unary .bitNot)
  | "++" => some .preInc
  | "--" => some .preDec
  | _ => none

def assignmentOperator? (symbol : String) : Option FixedKind :=
  if symbol = "=" then some .assign
  else
    match symbol.toList.reverse with
    | '=' :: op =>
      match BinaryOp.ofSymbol? (String.ofList op.reverse) with
      | some op => if op.hasCompoundForm then some (.assignOp op) else none
      | none => none
    | _ => none

namespace Grammar

variable {m : Type → Type} {ν : Type} [Monad m] [MonadExceptOf SyntaxFailure m] [Nodes m ν]

def arguments (g : Grammar m ν) (line : Nat) : Reader m ν := do
  Nodes.list .argList (← g.items ")" g.expression) line

def newObject (g : Grammar m ν) (line : Nat) : Reader m ν := do
  let className ← g.nameLeaf
  let arguments ←
    if ← Reader.acceptSymbol "(" then g.arguments line else Nodes.list .argList [] line
  Nodes.fixed .new [some className, some arguments] line

def closure (g : Grammar m ν) (line : Nat) : Reader m ν := do
  let signature ← g.signature line
  let body ← g.block
  Nodes.decl .closure closureName 0 (signature.slots (some body)) line

def array (g : Grammar m ν) (close : String) (line : Nat) : Reader m ν := do
  Nodes.list .array (← g.items close g.expression) line

/-- A variable, or the name of a function if a call follows. -/
def reference (g : Grammar m ν) (line : Nat) : Reader m ν := do
  let before ← get
  match (Reader.identifier g.sigil : PlainReader String) before with
  | .ok (text, next) =>
    set next
    if ← Reader.peekSymbol "(" then Nodes.name text line else Nodes.var text line
  | .error _ => Reader.failAt .expression before

def worded (g : Grammar m ν) (line : Nat) : Reader m ν := do
  match (← get).word? with
  | none => g.reference line
  | some (word, next) =>
    match literalWord? word with
    | some value => set next; Nodes.literal value line
    | none =>
      match word with
      | "new" => set next; g.newObject line
      | "function" => set next; g.closure line
      | "array" =>
        match next.pastSymbol? "(" with
        | some next => set next; g.array ")" line
        | none => g.reference line
      | _ => g.reference line

/-- An expression that no operator outside parentheses joins to another. -/
def primary (g : Grammar m ν) : Reader m ν := do
  let line ← Reader.here
  match (← get).rest with
  | [] => g.worded line
  | c :: _ =>
    if c.isDigit then Nodes.literal (← Reader.number) line
    else if c = '"' ∨ c = '\'' then Nodes.literal (← Reader.string c) line
    else if ← Reader.acceptSymbol "(" then
      let inner ← g.expression
      Reader.expectSymbol ")"
      pure inner
    else if ← Reader.acceptSymbol "[" then g.array "]" line
    else g.worded line

def member (g : Grammar m ν) (object : ν) (line : Nat) : Reader m ν := do
  let name ← g.nameLeaf
  if ← Reader.acceptSymbol "(" then
    let arguments ← g.arguments line
    Nodes.fixed .methodCall [some object, some name, some arguments] line
  else Nodes.fixed .prop [some object, some name] line

/-- What may follow an expression directly, behind its first symbol; none for other symbols. -/
def suffix? (g : Grammar m ν) (symbol : String) (inner : ν) (line : Nat) : Option (Reader m ν) :=
  match symbol with
  | "(" => some do
    let arguments ← g.arguments line
    Nodes.fixed .call [some inner, some arguments] line
  | "[" => some do
    let index ← g.optionalExpression "]"
    Reader.expectSymbol "]"
    Nodes.fixed .dim [some inner, index] line
  | "->" => some (g.member inner line)
  | "++" => some (Nodes.fixed .postInc [some inner] line)
  | "--" => some (Nodes.fixed .postDec [some inner] line)
  | _ => none

def suffixesWithin (g : Grammar m ν) : Nat → ν → Reader m ν
  | 0, _ => Reader.fail .nesting
  | fuel + 1, inner => do
    match (← get).symbol? with
    | none => pure inner
    | some (symbol, next) =>
      match g.suffix? symbol inner (← Nodes.lineOf inner) with
      | none => pure inner
      | some suffix =>
        set next
        suffixesWithin g fuel (← suffix)

def postfixed (g : Grammar m ν) : Reader m ν := do
  suffixesWithin g g.bound (← g.primary)

/-- A power; it associates to the right, and its exponent may have a sign. -/
def power (g : Grammar m ν) : Reader m ν := do
  let base ← g.postfixed
  if ← Reader.acceptSymbol "**" then
    let exponent ← g.operand
    Nodes.fixed (.binary .pow) [some base, some exponent] (← Nodes.lineOf base)
  else pure base

def unary (g : Grammar m ν) : Reader m ν := do
  let line ← Reader.here
  match (← get).symbol? with
  | none => g.power
  | some (symbol, next) =>
    match leadingOperator? symbol with
    | none => g.power
    | some kind =>
      set next
      Nodes.fixed kind [some (← g.operand)] line

def instanceTestsWithin (g : Grammar m ν) : Nat → ν → Reader m ν
  | 0, _ => Reader.fail .nesting
  | fuel + 1, left => do
    if ← Reader.acceptWord "instanceof" then
      let right ← g.unary
      instanceTestsWithin g fuel
        (← Nodes.fixed .instanceTest [some left, some right] (← Nodes.lineOf left))
    else pure left

def instanceTest (g : Grammar m ν) : Reader m ν := do
  instanceTestsWithin g g.bound (← g.unary)

/-- Operators of one level behind their left operand, at most so many. -/
def binaryTailWithin (operand : Reader m ν) (level : Nat) : Nat → ν → Reader m ν
  | 0, _ => Reader.fail .nesting
  | fuel + 1, left => do
    match (← get).symbol? with
    | none => pure left
    | some (symbol, next) =>
      match binaryOperator? level symbol with
      | none => pure left
      | some op =>
        set next
        let right ← operand
        binaryTailWithin operand level fuel
          (← Nodes.fixed (.binary op) [some left, some right] (← Nodes.lineOf left))

/-- Binary operators of the so many tightest levels; they associate to the left. -/
def binary (g : Grammar m ν) : Nat → Reader m ν
  | 0 => g.instanceTest
  | levels + 1 => do
    let left ← binary g levels
    binaryTailWithin (binary g levels) (Strength.tightestBinary - levels) g.bound left

def binaryLevels : Nat := Strength.tightestBinary + 1 - Strength.loosestBinary

def choice (g : Grammar m ν) : Reader m ν := do
  let line ← Reader.here
  let condition ← g.binary binaryLevels
  if ← Reader.acceptSymbol "?" then
    let yes ← g.expression
    Reader.expectSymbol ":"
    let no ← g.conditional
    Nodes.fixed .conditional [some condition, some yes, some no] line
  else pure condition

/-- An assignment, which associates to the right, or a choice. -/
def assignment (g : Grammar m ν) : Reader m ν := do
  let line ← Reader.here
  let target ← g.choice
  match (← get).symbol? with
  | none => pure target
  | some (symbol, next) =>
    match assignmentOperator? symbol with
    | none => pure target
    | some kind =>
      set next
      Nodes.fixed kind [some target, some (← g.expression)] line

end Grammar

end SnippetRewrite
