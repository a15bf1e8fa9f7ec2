import SnippetRewrite.Parse.Literal
import SnippetRewrite.Parse.Nodes

/-!
What the parts of the grammar share: readers for those parts that occur inside themselves, and
lists of items. A grammar for texts that nest `n + 1` deep is made from the one for `n`. A nested
part is read behind at least one character of the part around it, unless it is the expression at the
start of a statement, so a text never nests deeper than twice its length and two.
-/

namespace SnippetRewrite

/-- Readers for the parts of a text that occur inside themselves. -/
structure Grammar (m : Type → Type) (ν : Type) where
  /-- The character that may begin an identifier besides `$`, letters and `_`. -/
  sigil : Char
  /-- More steps than any loop over the text takes. -/
  bound : Nat
  /-- An expression, assignments included. -/
  expression : Reader m ν
  /-- An expression without assignments outside parentheses. -/
  conditional : Reader m ν
  /-- The operand of an operator that stands before it. -/
  operand : Reader m ν
  /-- A statement; none for a lone semicolon. -/
  statement : Reader m (Option ν)

abbrev TreeGrammar := Grammar (Except SyntaxFailure) Tree

namespace Grammar

variable {m : Type → Type} {ν : Type} [Monad m] [MonadExceptOf SyntaxFailure m] [Nodes m ν]

def identifier (g : Grammar m ν) : Reader m String :=
  Reader.identifier g.sigil

/-- An identifier as a leaf, on the line where it stands. -/
def nameLeaf (g : Grammar m ν) : Reader m ν := do
  let line ← Reader.here
  Nodes.name (← g.identifier) line

def itemsWithin (close : String) (item : Reader m ν) : Nat → Reader m (List ν)
  | 0 => Reader.fail .nesting
  | fuel + 1 => do
    if ← Reader.acceptSymbol close then pure []
    else
      let first ← item
      if ← Reader.acceptSymbol "," then
        pure (first :: (← itemsWithin close item fuel))
      else
        Reader.expectSymbol close
        pure [first]

/-- Items separated by commas up to a closing symbol, with an optional comma behind the last. -/
def items (g : Grammar m ν) (close : String) (item : Reader m ν) : Reader m (List ν) :=
  itemsWithin close item g.bound

def optionalExpression (g : Grammar m ν) (stop : String) : Reader m (Option ν) := do
  if ← Reader.peekSymbol stop then pure none else some <$> g.expression

def blockStatementsWithin (g : Grammar m ν) : Nat → Reader m (List ν)
  | 0 => Reader.fail .nesting
  | fuel + 1 => do
    modify Cursor.skip
    match (← get).rest with
    | [] => Reader.fail .closingBrace
    | '\x7d' :: _ => pure []
    | _ =>
      let first ← g.statement
      pure (first.toList ++ (← blockStatementsWithin g fuel))

def block (g : Grammar m ν) : Reader m ν := do
  let line ← Reader.here
  Reader.expectSymbol "\x7b"
  let statements ← g.blockStatementsWithin g.bound
  Reader.expectSymbol "\x7d"
  Nodes.list .stmtList statements line

/-- Modifier keywords, at most so many, as a set of flags. -/
def modifiersWithin : Nat → Nat → Reader m Nat
  | 0, _ => Reader.fail .nesting
  | fuel + 1, flags => do
    match (← get).word? with
    | some (word, next) =>
      match modifierBit? word with
      | some bit => set next; modifiersWithin fuel (flags ||| bit)
      | none => pure flags
    | none => pure flags

def modifiers (g : Grammar m ν) : Reader m Nat :=
  modifiersWithin g.bound 0

end Grammar

end SnippetRewrite
