import SnippetRewrite.Text.Trim

/-!
Collecting lines until they make a complete text. A text is complete when no bracket and no string
is open and it can be read as a unit; one that cannot be read is complete too, unless it visibly
stops in the middle of a statement.
-/

namespace SnippetRewrite

/-- The lines collected so far, and what is open at their end. -/
structure Collector where
  text : String
  /-- Opening brackets less closing ones. -/
  nesting : Int
  /-- The quote of the string that is open. -/
  quote : Option Char
  /-- Whether the last character of that string began an escape. -/
  escaping : Bool
deriving DecidableEq, Repr

namespace Collector

def empty : Collector := ⟨"", 0, none, false⟩

def isCollecting (c : Collector) : Bool :=
  c.text ≠ ""

def prompt (c : Collector) : String :=
  if c.isCollecting then "   " else ">> "

/-- Follows brackets and strings through a character. -/
def scanChar (c : Collector) (ch : Char) : Collector :=
  match c.quote with
  | some quote =>
    if c.escaping then { c with escaping := false }
    else if ch = '\\' then { c with escaping := true }
    else if ch = quote then { c with quote := none }
    else c
  | none =>
    if ch = '"' ∨ ch = '\'' then { c with quote := some ch, escaping := false }
    else if ch = '\x7b' ∨ ch = '(' ∨ ch = '[' then { c with nesting := c.nesting + 1 }
    else if ch = '\x7d' ∨ ch = ')' ∨ ch = ']' then { c with nesting := c.nesting - 1 }
    else c

/-- Characters at the end of a text that call for more. -/
def danglingChars : List Char :=
  "=,+-*/.&|?:!<>".toList

/-- Words at the end of a text that call for more. -/
def danglingWords : List String :=
  ["if", "else", "elseif", "for", "while", "function", "return", "echo", "new"]

/-- Whether a text stops in the middle of a statement. -/
def isDangling (text : String) : Bool :=
  let cs := trimEnd text.toList
  (match cs.getLast? with
    | some c => danglingChars.contains c
    | none => false)
    || danglingWords.contains (String.ofList (lastWord cs))

def isComplete (parses : String → Bool) (c : Collector) : Bool :=
  c.quote.isNone && c.nesting ≤ 0 && (parses c.text || !isDangling c.text)

def append (c : Collector) (line : String) : Collector :=
  let text := if c.text = "" then line else c.text ++ "\n" ++ line
  line.toList.foldl scanChar { c with text }

/-- Takes a line and hands out the text if it is complete. -/
def feed (parses : String → Bool) (c : Collector) (line : String) : Option String × Collector :=
  let c := c.append line
  if c.isComplete parses then (some c.text, empty) else (none, c)

end Collector

end SnippetRewrite
