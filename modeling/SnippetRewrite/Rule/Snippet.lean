import SnippetRewrite.Arena.Copy
import SnippetRewrite.Parse.Unit

/-!
Rule snippets: pieces of source text in which names that begin with the capture sigil are capture
points. A snippet is read as a program and reduced to its only statement if it has just one. The
trees and the arenas of snippets are reduced and marked by separate definitions; the captures are
those met in the arena.
-/

namespace SnippetRewrite

/-- The label of source text that belongs to a rule. -/
def snippetOrigin : String := "<pattern>"

inductive CompileError where
  | parseFailed (error : ParseError)
  | emptyPattern
  | unboundCapture (name : String)
deriving DecidableEq, Repr

namespace CompileError

def message : CompileError → String
  | parseFailed error => "snippet does not parse: " ++ error.message
  | emptyPattern => "snippet contains no statement"
  | unboundCapture name => "template uses capture `" ++ name ++ "` that the pattern never binds"

def chain (e : CompileError) : List String :=
  match e with
  | parseFailed error => [e.message, error.message]
  | _ => [e.message]

end CompileError

/-- The capture that an identifier stands for: the sigil and a name behind it. -/
def captureName? (sigil : Char) (text : String) : Option String :=
  match text.toList with
  | c :: name => if c = sigil ∧ name ≠ [] then some (String.ofList name) else none
  | [] => none

/-- Inserts a name behind those present unless it is one of them. -/
def insertName (names : List String) (name : String) : List String :=
  if names.contains name then names else names ++ [name]

namespace Label

def captureName? (sigil : Char) (label : Label) : Option String :=
  label.nameText?.bind (SnippetRewrite.captureName? sigil)

def isVar : Label → Bool
  | fixed .var => true
  | _ => false

end Label

namespace Tree

def unwrapSingle : Tree → Tree
  | .node _ (.list .stmtList) [some only] => unwrapSingle only
  | t => t

/-- The capture that a node stands for: a name, or a variable around a name. -/
def captureName? (sigil : Char) : Tree → Option String
  | .node _ (.fixed .var) (some name :: _) => name.label.captureName? sigil
  | .node _ label _ => label.captureName? sigil

mutual

def markCaptures (sigil : Char) : Tree → Tree
  | .node line label slots =>
    match captureName? sigil (.node line label slots) with
    | some name => .node line (.capture name) []
    | none => .node line label (markSlots sigil slots)

def markSlots (sigil : Char) : List (Option Tree) → List (Option Tree)
  | [] => []
  | none :: rest => none :: markSlots sigil rest
  | some t :: rest => some (markCaptures sigil t) :: markSlots sigil rest

end

end Tree

namespace Arena

/-- Frees statement lists with exactly one statement from the root down, at most so many, and makes
the statement inside the root. -/
def enterSingle : Nat → Arena → NodeId → Arena
  | 0, a, id => { a with root := some id }
  | fuel + 1, a, id =>
    match a.cell? id with
    | some ⟨_, .list .stmtList, [some only]⟩ => enterSingle fuel (a.releaseShallow id) only
    | _ => { a with root := some id }

/-- The capture that a node stands for, with the name inside a variable. -/
def captureAt? (a : Arena) (sigil : Char) (c : Cell) : Option (String × Option NodeId) :=
  if c.label.isVar then
    match c.child? 0 with
    | some name =>
      (a.cell? name).bind fun d => (d.label.captureName? sigil).map fun text => (text, some name)
    | none => none
  else (c.label.captureName? sigil).map fun text => (text, none)

end Arena

/-- An arena in which names are being marked, and the captures that have been met there. -/
structure Marking where
  arena : Arena
  captures : List String
deriving Repr

namespace Marking

/-- Puts a capture point in the place of a node. The name inside a variable is released. -/
def mark (m : Marking) (id : NodeId) (line : Nat) (name : String) (wrapped : Option NodeId) :
    Marking :=
  let a := wrapped.elim m.arena m.arena.release
  ⟨a.put id (some ⟨line, .capture name, []⟩), insertName m.captures name⟩

/-- Puts capture points in the places of the nodes that stand for captures, down to a depth. -/
def markWithin (sigil : Char) : Nat → Marking → NodeId → Marking
  | 0, m, _ => m
  | fuel + 1, m, id =>
    match m.arena.cell? id with
    | none => m
    | some c =>
      match m.arena.captureAt? sigil c with
      | some (name, wrapped) => m.mark id c.line name wrapped
      | none => c.children.foldl (markWithin sigil fuel) m

end Marking

/-- The arena and the captures of a snippet from the arena of the program it was read as. -/
def Arena.toSnippet (a : Arena) (sigil : Char) : Marking :=
  match a.root with
  | none => ⟨a, []⟩
  | some root =>
    let a := a.enterSingle a.depthBound root
    match a.root with
    | none => ⟨a, []⟩
    | some root => Marking.markWithin sigil a.depthBound ⟨a, []⟩ root

/-- One side of a rule: its text, the arena and the tree made from it, and its capture names in the
order of first occurrence. -/
structure Snippet where
  source : String
  arena : Arena
  tree : Tree
  captures : List String
deriving Repr

/-- How snippets are read: the sigil that the reader of the host language admits in identifiers,
and the sigil that marks captures. -/
structure SnippetReader where
  readerSigil : Char
  sigil : Char
deriving Repr

namespace SnippetReader

def ofSigil (sigil : Char) : SnippetReader := ⟨sigil, sigil⟩

/-- A snippet as a program. An expression may lack its closing semicolon; if the text is wrong with
the semicolon too, the error without it is reported. -/
def program (r : SnippetReader) (source : String) : Except ParseError Tree :=
  let read (text : String) := readProgram r.readerSigil text.toList
  match read source with
  | .ok t => .ok t
  | .error f =>
    match read (source ++ "\n;") with
    | .ok t => .ok t
    | .error _ => .error (f.report snippetOrigin)

def snippet (r : SnippetReader) (source : String) : Except CompileError Snippet :=
  match r.program source with
  | .error e => .error (.parseFailed e)
  | .ok t =>
    if t.slots.isEmpty then .error .emptyPattern
    else
      let marked := (Arena.ofTree snippetOrigin t).toSnippet r.sigil
      .ok
        { source
          arena := marked.arena
          tree := t.unwrapSingle.markCaptures r.sigil
          captures := marked.captures }

end SnippetReader

structure Pattern extends Snippet
deriving Repr

structure Template extends Snippet
deriving Repr

namespace SnippetReader

/-- A pattern holds something: a list without items would match too much. -/
def pattern (r : SnippetReader) (source : String) : Except CompileError Pattern := do
  let s ← r.snippet source
  match s.tree with
  | .node _ (.list _) [] => .error .emptyPattern
  | _ => pure ⟨s⟩

def template (r : SnippetReader) (source : String) : Except CompileError Template := do
  pure ⟨← r.snippet source⟩

/-- Both sides of a rule. The pattern binds every capture of the template. -/
def rule (r : SnippetReader) (source replacement : String) :
    Except CompileError (Pattern × Template) := do
  let p ← r.pattern source
  let t ← r.template replacement
  match t.captures.find? fun name => !p.captures.contains name with
  | some name => .error (.unboundCapture name)
  | none => pure (p, t)

end SnippetReader

end SnippetRewrite
