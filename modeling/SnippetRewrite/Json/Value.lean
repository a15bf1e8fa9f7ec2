import SnippetRewrite.Parse.Literal

/-!
JSON texts as values. Numbers keep their text, since whether a number is acceptable depends on how
it is written; a string with half a surrogate pair is a value without text. Reading is strict: no
comments, no superfluous commas or zeros, nothing but blanks behind the value.
-/

namespace SnippetRewrite

inductive Json where
  | null
  | bool (b : Bool)
  | number (text : String)
  | string (text : Option String)
  | array (items : List Json)
  | object (fields : List (Option String × Json))
deriving Repr, Inhabited

namespace Json

def isSpace (c : Char) : Bool :=
  c = ' ' || c = '\t' || c = '\n' || c = '\r'

def skipSpace (cs : List Char) : List Char :=
  cs.dropWhile isSpace

def hexQuad? (a b c d : Char) : Option Nat :=
  if isHexDigit a && isHexDigit b && isHexDigit c && isHexDigit d then some (hexValue [a, b, c, d])
  else none

def simpleEscape? : Char → Option Nat
  | '"' => some 0x22
  | '\\' => some 0x5c
  | '/' => some 0x2f
  | 'b' => some 0x8
  | 'f' => some 0xc
  | 'n' => some 0xa
  | 'r' => some 0xd
  | 't' => some 0x9
  | _ => none

/-- Reads the code units of a string up to the closing quote; `done` holds those read, reversed. -/
def readUnits : List Nat → List Char → Option (List Nat × List Char)
  | _, [] => none
  | done, '"' :: rest => some (done.reverse, rest)
  | done, '\\' :: 'u' :: a :: b :: c :: d :: rest =>
    match hexQuad? a b c d with
    | some unit => readUnits (unit :: done) rest
    | none => none
  | done, '\\' :: e :: rest =>
    match simpleEscape? e with
    | some unit => readUnits (unit :: done) rest
    | none => none
  | done, c :: rest =>
    if c = '\\' ∨ c.toNat < 0x20 then none else readUnits (c.toNat :: done) rest

/-- The characters of code units; the two halves of a surrogate pair make one. -/
def joinSurrogates : List Nat → Option (List Char)
  | [] => some []
  | [u] => if 0xd800 ≤ u ∧ u < 0xe000 then none else some [Char.ofNat u]
  | u :: v :: rest =>
    if 0xd800 ≤ u ∧ u < 0xdc00 then
      if 0xdc00 ≤ v ∧ v < 0xe000 then
        (joinSurrogates rest).map (Char.ofNat (0x10000 + (u - 0xd800) * 0x400 + (v - 0xdc00)) :: ·)
      else none
    else if 0xdc00 ≤ u ∧ u < 0xe000 then none
    else (joinSurrogates (v :: rest)).map (Char.ofNat u :: ·)

def readString (cs : List Char) : Option (Option String × List Char) := do
  let (units, rest) ← readUnits [] cs
  pure ((joinSurrogates units).map String.ofList, rest)

def readDigits (cs : List Char) : Option (List Char × List Char) :=
  match cs.takeWhile Char.isDigit with
  | [] => none
  | digits => some (digits, cs.drop digits.length)

/-- Reads the digits before the point of a number: no zero stands in front of others. -/
def readWhole : List Char → Option (List Char × List Char)
  | '0' :: rest => some (['0'], rest)
  | cs => readDigits cs

def readFraction : List Char → Option (List Char × List Char)
  | '.' :: rest => (readDigits rest).map fun (digits, rest) => ('.' :: digits, rest)
  | cs => some ([], cs)

def readPower : List Char → Option (List Char × List Char)
  | e :: rest =>
    if e = 'e' ∨ e = 'E' then
      match rest with
      | '+' :: rest => (readDigits rest).map fun (digits, rest) => (e :: '+' :: digits, rest)
      | '-' :: rest => (readDigits rest).map fun (digits, rest) => (e :: '-' :: digits, rest)
      | rest => (readDigits rest).map fun (digits, rest) => (e :: digits, rest)
    else some ([], e :: rest)
  | [] => some ([], [])

def readNumber (cs : List Char) : Option (Json × List Char) := do
  let (sign, cs) :=
    match cs with
    | '-' :: rest => (['-'], rest)
    | cs => ([], cs)
  let (whole, cs) ← readWhole cs
  let (fraction, cs) ← readFraction cs
  let (power, cs) ← readPower cs
  pure (.number (String.ofList (sign ++ whole ++ fraction ++ power)), cs)

/-- Reads the items of an array behind the bracket or comma in front of them, at most so many. -/
def readItems (item : List Char → Option (Json × List Char)) :
    Nat → List Char → Option (List Json × List Char)
  | 0, _ => none
  | fuel + 1, cs => do
    let (first, cs) ← item cs
    match skipSpace cs with
    | ',' :: rest =>
      let (items, rest) ← readItems item fuel rest
      pure (first :: items, rest)
    | ']' :: rest => pure ([first], rest)
    | _ => none

/-- Reads the fields of an object behind the brace or comma in front of them, at most so many. -/
def readFields (item : List Char → Option (Json × List Char)) :
    Nat → List Char → Option (List (Option String × Json) × List Char)
  | 0, _ => none
  | fuel + 1, cs => do
    match skipSpace cs with
    | '"' :: cs =>
      let (key, cs) ← readString cs
      match skipSpace cs with
      | ':' :: cs =>
        let (value, cs) ← item cs
        match skipSpace cs with
        | ',' :: rest =>
          let (fields, rest) ← readFields item fuel rest
          pure ((key, value) :: fields, rest)
        | '\x7d' :: rest => pure ([(key, value)], rest)
        | _ => none
      | _ => none
    | _ => none

/-- Reads a value that nests at most so deep, with at most `bound` items in a list. -/
def readValue (bound : Nat) : Nat → List Char → Option (Json × List Char)
  | 0, _ => none
  | depth + 1, cs =>
    match skipSpace cs with
    | 'n' :: 'u' :: 'l' :: 'l' :: rest => some (.null, rest)
    | 't' :: 'r' :: 'u' :: 'e' :: rest => some (.bool true, rest)
    | 'f' :: 'a' :: 'l' :: 's' :: 'e' :: rest => some (.bool false, rest)
    | '"' :: rest => (readString rest).map fun (text, rest) => (.string text, rest)
    | '[' :: rest =>
      match skipSpace rest with
      | ']' :: rest => some (.array [], rest)
      | rest => (readItems (readValue bound depth) bound rest).map fun (items, rest) =>
          (.array items, rest)
    | '\x7b' :: rest =>
      match skipSpace rest with
      | '\x7d' :: rest => some (.object [], rest)
      | rest => (readFields (readValue bound depth) bound rest).map fun (fields, rest) =>
          (.object fields, rest)
    | cs => readNumber cs

/-- Reads a text that holds one value and nothing else. -/
def read? (text : String) : Option Json := do
  let cs := text.toList
  let (value, rest) ← readValue (cs.length + 1) (cs.length + 1) cs
  if (skipSpace rest).isEmpty then pure value else none

end Json

end SnippetRewrite
