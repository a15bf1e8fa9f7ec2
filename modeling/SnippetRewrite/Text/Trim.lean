import SnippetRewrite.Text.CharClass

/-!
Cutting texts at blanks: trimming, the first line, the last word, and the two halves around a
separator.
-/

namespace SnippetRewrite

def trimEnd (cs : List Char) : List Char :=
  (cs.reverse.dropWhile isBlank).reverse

def trim (cs : List Char) : List Char :=
  trimEnd (cs.dropWhile isBlank)

/-- The characters before the first line feed. -/
def firstLine (cs : List Char) : List Char :=
  cs.takeWhile (· ≠ '\n')

/-- The last maximal run of characters that are no blanks; empty when there is none. -/
def lastWord (cs : List Char) : List Char :=
  ((cs.reverse.dropWhile isBlank).takeWhile fun c => !isBlank c).reverse

/-- What follows a given beginning, if the text has it. -/
def afterStart : List Char → List Char → Option (List Char)
  | [], cs => some cs
  | _ :: _, [] => none
  | s :: start, c :: cs => if s = c then afterStart start cs else none

/-- The texts before and after the first occurrence of a separator. -/
def cutAt (separator : List Char) : List Char → Option (List Char × List Char)
  | [] => (afterStart separator []).map fun rest => ([], rest)
  | c :: cs =>
    match afterStart separator (c :: cs) with
    | some rest => some ([], rest)
    | none => (cutAt separator cs).map fun (before, rest) => (c :: before, rest)

theorem afterStart_append (start cs : List Char) : afterStart start (start ++ cs) = some cs := by
  induction start with
  | nil => rfl
  | cons c start ih => simp [afterStart, ih]

theorem eq_append_of_afterStart {start cs rest : List Char} (h : afterStart start cs = some rest) :
    cs = start ++ rest := by
  induction start generalizing cs with
  | nil => simpa [afterStart] using h
  | cons c start ih =>
    cases cs with
    | nil => simp [afterStart] at h
    | cons d cs =>
      simp only [afterStart] at h
      split at h
      · next hc => simp [hc, ih h]
      · simp at h

end SnippetRewrite
