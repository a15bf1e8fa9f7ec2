import SnippetRewrite.Parse.Token
import SnippetRewrite.Syntax.Value

/-!
Number and string literals. Integers beyond 64 bits become floats when they are written in decimal
and are refused in hexadecimal. Single-quoted strings know fewer escapes than double-quoted ones;
an escape that is unknown stands for itself.
-/

namespace SnippetRewrite

def maxInteger : Nat := Nat.pow 2 63 - 1

def isHexDigit (c : Char) : Bool :=
  c.isDigit || ('a' ≤ c && c ≤ 'f') || ('A' ≤ c && c ≤ 'F')

def hexDigitValue (c : Char) : Nat :=
  if c.isDigit then c.toNat - '0'.toNat
  else if 'a' ≤ c then c.toNat - 'a'.toNat + 10
  else c.toNat - 'A'.toNat + 10

def hexValue (digits : List Char) : Nat :=
  digits.foldl (fun n c => 16 * n + hexDigitValue c) 0

def hexDigits? : List Char → Option (List Char)
  | '0' :: x :: rest =>
    if x = 'x' ∨ x = 'X' then
      match rest.takeWhile isHexDigit with
      | [] => none
      | digits => some digits
    else none
  | _ => none

/-- The fraction of a number: the digits behind a point. -/
def fractionDigits : List Char → List Char
  | '.' :: rest => rest.takeWhile Char.isDigit
  | _ => []

/-- The exponent of a number as it is written, without the letter in front. -/
def exponentDigits : List Char → List Char
  | e :: rest =>
    if e = 'e' ∨ e = 'E' then
      match rest with
      | sign :: digits =>
        if sign = '+' ∨ sign = '-' then
          match digits.takeWhile Char.isDigit with
          | [] => []
          | digits => sign :: digits
        else rest.takeWhile Char.isDigit
      | [] => []
    else []
  | [] => []

structure DecimalLiteral where
  whole : List Char
  fraction : List Char
  exponent : List Char

namespace DecimalLiteral

/-- The longest decimal literal at the start of a text. -/
def scan (cs : List Char) : DecimalLiteral :=
  let whole := cs.takeWhile Char.isDigit
  let rest := cs.drop whole.length
  let fraction := fractionDigits rest
  let rest := if fraction.isEmpty then rest else rest.drop (fraction.length + 1)
  ⟨whole, fraction, exponentDigits rest⟩

def length (l : DecimalLiteral) : Nat :=
  l.whole.length + (if l.fraction.isEmpty then 0 else l.fraction.length + 1)
    + (if l.exponent.isEmpty then 0 else l.exponent.length + 1)

def exponentValue (l : DecimalLiteral) : Int :=
  let (negative, digits) := Double.cutSign l.exponent
  if negative then -(Double.digitsValue digits : Int) else Double.digitsValue digits

def value (l : DecimalLiteral) : Value :=
  if l.fraction.isEmpty && l.exponent.isEmpty && Double.digitsValue l.whole ≤ maxInteger then
    .int (Double.digitsValue l.whole)
  else .float (Double.ofDigits false l.whole l.fraction l.exponentValue)

end DecimalLiteral

/-- What an escape stands for; `quote` is the quote around the literal. -/
def unescaped (quote c : Char) : List Char :=
  if c = '\\' ∨ c = quote then [c]
  else if quote = '"' then
    match c with
    | 'n' => ['\n']
    | 't' => ['\t']
    | 'r' => ['\r']
    | '0' => ['\x00']
    | '$' => ['$']
    | _ => ['\\', c]
  else ['\\', c]

/-- Reads the characters up to the closing quote; `done` holds those read, reversed. None if the
quote never comes. -/
def readQuoted (quote : Char) : List Char → Position → List Char → Option (List Char × Cursor)
  | _, _, [] => none
  | done, p, [c] => if c = quote then some (done.reverse, ⟨[], p.past c⟩) else none
  | done, p, c :: d :: rest =>
    if c = quote then some (done.reverse, ⟨d :: rest, p.past c⟩)
    else if c = '\\' then
      readQuoted quote ((unescaped quote d).reverse ++ done) ((p.past c).past d) rest
    else readQuoted quote (c :: done) (p.past c) (d :: rest)

namespace Reader

variable {m : Type → Type} [Monad m] [MonadExceptOf SyntaxFailure m]

/-- Reads a number; a digit comes next. -/
def number : Reader m Value := do
  let c := (← get).skip
  match hexDigits? c.rest with
  | some digits =>
    if hexValue digits ≤ maxInteger then
      set (c.advance (digits.length + 2))
      pure (.int (hexValue digits))
    else failAt .hexadecimal c
  | none =>
    let l := DecimalLiteral.scan c.rest
    set (c.advance l.length)
    pure l.value

/-- Reads a string; a quote comes next. -/
def string (quote : Char) : Reader m Value := do
  let c := (← get).skip
  match readQuoted quote [] (c.advance 1).position (c.rest.drop 1) with
  | some (text, next) =>
    set next
    pure (.str (String.ofList text))
  | none => failAt .openString c

end Reader

end SnippetRewrite
