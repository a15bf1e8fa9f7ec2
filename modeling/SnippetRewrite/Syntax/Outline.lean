import SnippetRewrite.Syntax.Tree

/-!
The outline of a tree: one line per node with its kind and payload, indented by its depth, and a
dash for each empty slot.
-/

namespace SnippetRewrite

def hexText (n : Nat) : String :=
  String.ofList (Nat.toDigits 16 n)

namespace Label

/-- The line of a node with `count` child slots. -/
def outline (count : Nat) : Label → String
  | leaf kind value => kind.text ++ " " ++ value.text
  | capture name => "<$" ++ name ++ ">"
  | decl kind name flags =>
    kind.text ++ " " ++ name ++ " " ++ (if flags = 0 then "" else "0x" ++ hexText flags ++ " ")
      ++ "(" ++ toString count ++ " children)"
  | label => label.kind.text ++ " (" ++ toString count ++ " children)"

end Label

namespace Tree

/-- Two blanks per level. -/
def margin (depth : Nat) : String :=
  String.ofList (List.replicate (2 * depth) ' ')

mutual

def outlineAt (depth : Nat) : Tree → String
  | node _ label slots =>
    margin depth ++ label.outline slots.length ++ "\n" ++ outlineSlots depth slots

def outlineSlots (depth : Nat) : List (Option Tree) → String
  | [] => ""
  | none :: rest => margin depth ++ "  -\n" ++ outlineSlots depth rest
  | some t :: rest => outlineAt (depth + 1) t ++ outlineSlots depth rest

end

def outline (t : Tree) : String :=
  t.outlineAt 0

end Tree

end SnippetRewrite
