import SnippetRewrite.Text.AlphabeticRanges
import SnippetRewrite.Text.NumericRanges

/-!
Character classes of the host language. Letters and digits are those of Unicode: a letter has the
property `Alphabetic`, a digit one of the categories `Nd`, `Nl` and `No`. Blanks are the characters
with the property `White_Space`. ASCII is decided without the tables.
-/

namespace SnippetRewrite

/-- Membership in a list of closed ranges of code points. -/
def inRanges (ranges : List (Nat × Nat)) (c : Char) : Bool :=
  ranges.any fun r => r.1 ≤ c.toNat && c.toNat ≤ r.2

def isAlphabetic (c : Char) : Bool :=
  if c.toNat < 0x80 then c.isAlpha else inRanges alphabeticRanges c

def isNumeric (c : Char) : Bool :=
  if c.toNat < 0x80 then c.isDigit else inRanges numericRanges c

def isAlphanumeric (c : Char) : Bool :=
  isAlphabetic c || isNumeric c

/-- The code points with the property `White_Space`, as closed ranges. -/
def blankRanges : List (Nat × Nat) :=
  [(0x9, 0xd), (0x20, 0x20), (0x85, 0x85), (0xa0, 0xa0), (0x1680, 0x1680), (0x2000, 0x200a),
   (0x2028, 0x2029), (0x202f, 0x202f), (0x205f, 0x205f), (0x3000, 0x3000)]

/-- Whether a character is a blank in the sense of Unicode. -/
def isBlank (c : Char) : Bool :=
  inRanges blankRanges c

theorem isAlphabetic_of_isAlpha {c : Char} (h : c.toNat < 0x80) : isAlphabetic c = c.isAlpha := by
  simp [isAlphabetic, h]

theorem isNumeric_of_isDigit {c : Char} (h : c.toNat < 0x80) : isNumeric c = c.isDigit := by
  simp [isNumeric, h]

end SnippetRewrite
