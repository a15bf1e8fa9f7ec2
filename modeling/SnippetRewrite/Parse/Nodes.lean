import SnippetRewrite.Arena.Basic
import SnippetRewrite.Parse.Token
import SnippetRewrite.Syntax.Tree

/-!
Where the nodes go that a grammar makes. Its productions are written once, over any kind of nodes:
nodes in the arena of a unit, each stored as soon as the last of its children is, or trees.
-/

namespace SnippetRewrite

/-- How the nodes of a text are made, and on which line a node is. -/
class Nodes (m : Type → Type) (ν : outParam Type) where
  fixed (kind : FixedKind) (slots : List (Option ν)) (line : Nat) : Reader m ν
  decl (kind : DeclKind) (name : String) (flags : Nat) (slots : List (Option ν)) (line : Nat) :
    Reader m ν
  list (kind : ListKind) (items : List ν) (line : Nat) : Reader m ν
  name (text : String) (line : Nat) : Reader m ν
  var (text : String) (line : Nat) : Reader m ν
  literal (value : Value) (line : Nat) : Reader m ν
  lineOf (node : ν) : Reader m Nat

/-- Trees are made by themselves. -/
instance : Nodes (Except SyntaxFailure) Tree where
  fixed kind slots line := pure (.fixed kind slots line)
  decl kind name flags slots line := pure (.node line (.decl kind name flags) slots)
  list kind items line := pure (.list kind items line)
  name text line := pure (.name text line)
  var text line := pure (.var text line)
  literal value line := pure (.literal value line)
  lineOf t := pure t.line

/-- The work on the arena of the unit that is read. What is stored before a failure stays stored. -/
abbrev Building := EStateM SyntaxFailure Arena

namespace Building

/-- An edit of the arena, in which nothing is read from the text. -/
def edit {α : Type} (x : Edit α) : Reader Building α := fun c a =>
  match x a with
  | .ok v b => .ok (v, c) b
  | .error e b => .error ⟨.malformed e, c⟩ b

end Building

instance : Nodes Building NodeId where
  fixed kind slots line := Building.edit (Edit.fixed kind slots line)
  decl kind name flags slots line := Building.edit (Edit.decl kind name flags slots line)
  list kind items line := Building.edit (Edit.list kind items line)
  name text line := Building.edit (Edit.name text line)
  var text line := Building.edit (Edit.var text line)
  literal value line := Building.edit (Edit.literal value line)
  lineOf id := Building.edit (Edit.ofRead fun a => a.line id)

end SnippetRewrite
