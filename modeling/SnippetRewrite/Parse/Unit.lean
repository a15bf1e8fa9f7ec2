import SnippetRewrite.Parse.Statement

/-!
Reading a source text into the arena of a unit.
-/

namespace SnippetRewrite

/-- Reads a program, with a label for its source, into an arena of its own. -/
def parseUnit (sigil : Char) (source origin : String) : Except ParseError Arena :=
  let grammar : Grammar Building NodeId := .ofLength sigil source.toList.length
  match grammar.program (Cursor.start source.toList) (Arena.empty origin) with
  | .ok (root, _) a => .ok { a with root := some root }
  | .error f _ => .error (f.report origin)

def readerName : String := "splice"

def readerNamed? (name : String) : Option String :=
  if name = readerName ∨ name = "php" then some readerName else none

end SnippetRewrite
