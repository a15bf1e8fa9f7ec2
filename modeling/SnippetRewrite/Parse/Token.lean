import SnippetRewrite.Parse.Failure
import SnippetRewrite.Syntax.Operator

/-!
Tokens: operators and punctuation, words, and identifiers. Each token is read at the place where
the grammar asks for it, behind the separators and comments in front of it. An identifier may begin
with `$` or with the capture sigil; a word may not.
-/

namespace SnippetRewrite

/-- Operators and punctuation; a symbol stands in front of those that begin it. -/
def symbols : List String :=
  ["===", "!==", "**=", "<<=", ">>=", "...", "==", "!=", "<=", ">=", "&&", "||", "++", "--",
   "+=", "-=", "*=", "/=", ".=", "%=", "|=", "&=", "^=", "<<", ">>", "**", "->", "::", "=>",
   "+", "-", "*", "/", "%", ".", "<", ">", "=", "!", "~", "&", "|", "^", "?", ":", ";", ",",
   "(", ")", "[", "]", "\x7b", "\x7d"]

def symbolTable : List (List Char × String) :=
  symbols.map fun s => (s.toList, s)

def keywords : List String :=
  ["if", "else", "elseif", "while", "for", "return", "echo", "function", "class", "extends",
   "implements", "new", "instanceof", "use", "abstract", "final", "public", "protected",
   "private", "static"]

/-- The characters that have a meaning of their own and begin no identifier. -/
def reservedChars : List Char :=
  "+-*/%.<>=!~&|^?:;,()[]\x7b\x7d\"'#\\".toList

/-- Whether a character may mark captures: it begins no other token and continues no word. -/
def isValidSigil (c : Char) : Bool :=
  c ≠ '_' && !isAlphanumeric c && !isBlank c && !reservedChars.contains c

/-- The capture sigil unless another is chosen. -/
def defaultSigil : Char := '$'

def isWordStart (c : Char) : Bool :=
  isAlphabetic c || c = '_'

def isWordChar (c : Char) : Bool :=
  isAlphanumeric c || c = '_'

def isIdentifierStart (sigil c : Char) : Bool :=
  isWordStart c || c = '$' || c = sigil

namespace Cursor

/-- The longest symbol at the cursor, and the cursor behind it. -/
def symbolHere? (c : Cursor) : Option (String × Cursor) :=
  symbolTable.findSome? fun (text, symbol) => (c.past? text).map fun next => (symbol, next)

def symbol? (c : Cursor) : Option (String × Cursor) :=
  c.skip.symbolHere?

/-- Letters, digits and underscores from a first character of a given class on. -/
def wordHere? (isStart : Char → Bool) (c : Cursor) : Option (String × Cursor) :=
  match c.rest with
  | [] => none
  | first :: rest =>
    if isStart first then
      let tail := rest.takeWhile isWordChar
      some (String.ofList (first :: tail), c.advance (tail.length + 1))
    else none

def word? (c : Cursor) : Option (String × Cursor) :=
  c.skip.wordHere? isWordStart

def pastSymbol? (symbol : String) (c : Cursor) : Option Cursor :=
  match c.symbol? with
  | some (text, next) => if text = symbol then some next else none
  | none => none

def pastWord? (word : String) (c : Cursor) : Option Cursor :=
  match c.word? with
  | some (text, next) => if text = word then some next else none
  | none => none

end Cursor

/-- A reader of a part of a source text, which fails or moves the cursor behind what it has read, and
does what else it does in `m`. -/
abbrev Reader (m : Type → Type) (α : Type) := StateT Cursor m α

/-- A reader that does nothing else. -/
abbrev PlainReader (α : Type) := Reader (Except SyntaxFailure) α

namespace Reader

variable {m : Type → Type} [Monad m] [MonadExceptOf SyntaxFailure m]

def failAt {α : Type} (cause : SyntaxCause) (place : Cursor) : Reader m α :=
  throw ⟨cause, place⟩

def fail {α : Type} (cause : SyntaxCause) : Reader m α := do
  failAt cause (← get)

/-- Moves to the next token and answers the line it is on. -/
def here : Reader m Nat := do
  modify Cursor.skip
  pure (← get).position.line

def acceptSymbol (symbol : String) : Reader m Bool := do
  match (← get).pastSymbol? symbol with
  | some next => set next; pure true
  | none => pure false

def expectSymbol (symbol : String) : Reader m Unit := do
  unless ← acceptSymbol symbol do
    failAt (.token symbol) (← get).skip

def peekSymbol (symbol : String) : Reader m Bool := do
  pure ((← get).pastSymbol? symbol).isSome

def acceptWord (word : String) : Reader m Bool := do
  match (← get).pastWord? word with
  | some next => set next; pure true
  | none => pure false

/-- Reads anything that has the form of an identifier. -/
def anyIdentifier (sigil : Char) : Reader m String := do
  let c := (← get).skip
  match c.wordHere? (isIdentifierStart sigil) with
  | some (text, next) => set next; pure text
  | none => failAt .identifierStart c

/-- Reads an identifier that is no keyword. -/
def identifier (sigil : Char) : Reader m String := do
  let before ← get
  let text ← anyIdentifier sigil
  if keywords.contains text then failAt .identifier before else pure text

end Reader

end SnippetRewrite
