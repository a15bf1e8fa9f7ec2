import SnippetRewrite.Arena.Basic
import SnippetRewrite.Parse.Cursor

/-!
Syntax errors: what was missing or wrong, and where. The text of an error quotes the first
characters of the line that is left at its place.
-/

namespace SnippetRewrite

/-- What is wrong at a place in a source text. -/
inductive SyntaxCause where
  /-- Another token than the required one. -/
  | token (text : String)
  | expression
  | statement
  /-- A keyword where an identifier is required. -/
  | identifier
  /-- A character that cannot begin an identifier. -/
  | identifierStart
  | closingBrace
  | classKeyword
  | method
  | hexadecimal
  | openString
  /-- A construct that nests deeper than the grammar allows for; no text has one. -/
  | nesting
  /-- A node of the wrong shape, or a node that is read and not there; no text leads to one. -/
  | malformed (error : ArenaError)
deriving DecidableEq, Repr

def SyntaxCause.message : SyntaxCause → String
  | token text => "expected `" ++ text ++ "`"
  | expression => "expected expression"
  | statement => "expected statement"
  | identifier => "expected identifier"
  | identifierStart => "unexpected input (Satisfy)"
  | closingBrace => "expected `\x7d` before end of input"
  | classKeyword => "expected `class`"
  | method => "expected method declaration"
  | hexadecimal => "hexadecimal literal out of range"
  | openString => "unterminated string literal"
  | nesting => "nesting too deep"
  | malformed (.shape _) => "malformed syntax tree"
  | malformed (.fault fault) => fault.message

structure SyntaxFailure where
  cause : SyntaxCause
  place : Cursor
deriving DecidableEq, Repr

def quoteLength : Nat := 16

/-- The beginning of the first line of a text, for an error at its first character. -/
def nearText (rest : List Char) : String :=
  match (trim (firstLine rest)).take quoteLength with
  | [] => " at end of input"
  | quote => " near `" ++ String.ofList quote ++ "`"

structure ParseError where
  origin : String
  line : Nat
  column : Nat
  detail : String
deriving DecidableEq, Repr

def ParseError.message (e : ParseError) : String :=
  e.origin ++ ":" ++ toString e.line ++ ":" ++ toString e.column ++ ": " ++ e.detail

def SyntaxFailure.report (origin : String) (f : SyntaxFailure) : ParseError where
  origin := origin
  line := f.place.position.line
  column := f.place.position.column
  detail := f.cause.message ++ nearText f.place.rest

end SnippetRewrite
