import SnippetRewrite.Text.Trim

/-!
Places in a source text: the characters that are left, with the line and the column of the first
of them. Lines end at a line feed; both counts begin at one, and columns count characters.
-/

namespace SnippetRewrite

structure Position where
  line : Nat
  column : Nat
deriving DecidableEq, Repr, Inhabited

namespace Position

def start : Position := ⟨1, 1⟩

def past (p : Position) (c : Char) : Position :=
  if c = '\n' then ⟨p.line + 1, 1⟩ else ⟨p.line, p.column + 1⟩

end Position

structure Cursor where
  rest : List Char
  position : Position
deriving DecidableEq, Repr, Inhabited

/-- What surrounds the next character between two tokens. -/
inductive Trivia where
  | between
  | lineComment
  | blockComment

/-- The characters that separate tokens outside comments. -/
def isSeparator (c : Char) : Bool :=
  c = ' ' || c = '\t' || c = '\r' || c = '\n'

def closesComment : List Char → Bool
  | '*' :: '/' :: _ => true
  | _ :: rest => closesComment rest
  | [] => false

/-- Skips separators and comments. A line comment lasts up to the line feed; a block comment that
is never closed is none. -/
def skipTrivia : Trivia → Position → List Char → Cursor
  | _, p, [] => ⟨[], p⟩
  | .between, p, '/' :: '/' :: rest => skipTrivia .lineComment ((p.past '/').past '/') rest
  | .between, p, '/' :: '*' :: rest =>
    if closesComment rest then skipTrivia .blockComment ((p.past '/').past '*') rest
    else ⟨'/' :: '*' :: rest, p⟩
  | .between, p, c :: rest =>
    if isSeparator c then skipTrivia .between (p.past c) rest
    else if c = '#' then skipTrivia .lineComment (p.past c) rest
    else ⟨c :: rest, p⟩
  | .lineComment, p, c :: rest =>
    skipTrivia (if c = '\n' then .between else .lineComment) (p.past c) rest
  | .blockComment, p, '*' :: '/' :: rest => skipTrivia .between ((p.past '*').past '/') rest
  | .blockComment, p, c :: rest => skipTrivia .blockComment (p.past c) rest

namespace Cursor

def start (source : List Char) : Cursor :=
  ⟨source, .start⟩

def advance : Nat → Cursor → Cursor
  | 0, c => c
  | _ + 1, ⟨[], p⟩ => ⟨[], p⟩
  | n + 1, ⟨ch :: rest, p⟩ => advance n ⟨rest, p.past ch⟩

def skip (c : Cursor) : Cursor :=
  skipTrivia .between c.position c.rest

def past? (text : List Char) (c : Cursor) : Option Cursor :=
  if (afterStart text c.rest).isSome then some (c.advance text.length) else none

theorem rest_advance (n : Nat) (c : Cursor) : (c.advance n).rest = c.rest.drop n := by
  fun_induction advance n c <;> simp_all

end Cursor

end SnippetRewrite
