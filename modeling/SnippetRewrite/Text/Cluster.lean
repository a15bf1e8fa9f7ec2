import SnippetRewrite.Text.CharClass
import SnippetRewrite.Text.ClusterRanges

/-!
What a reader takes for one character: the extended grapheme clusters of Unicode, such as a letter
with its accents, a Hangul syllable, a flag, or a group of pictographs held together by joiners.
`clusters` divides a text into them; `flatten_clusters` says that nothing is lost, and
`ne_nil_of_mem_clusters` that no cluster is empty.
-/

namespace SnippetRewrite

/-- What a character contributes to the division of a text. -/
inductive ClusterClass where
  | carriageReturn | lineFeed | control
  | extend | linker | nonJoiner | joiner | spacing | prepend
  | regional | leading | vowel | trailing | openSyllable | closedSyllable
  | pictographic | consonant | other
deriving DecidableEq, Repr

namespace ClusterClass

/-- The class of a Hangul letter or syllable; a syllable is open where it has no last consonant. -/
def hangul? (code : Nat) : Option ClusterClass :=
  if 0xac00 ≤ code ∧ code ≤ 0xd7a3 then
    some (if (code - 0xac00) % 28 = 0 then openSyllable else closedSyllable)
  else if 0x1100 ≤ code ∧ code ≤ 0x115f ∨ 0xa960 ≤ code ∧ code ≤ 0xa97c then some leading
  else if 0x1160 ≤ code ∧ code ≤ 0x11a7 ∨ 0xd7b0 ≤ code ∧ code ≤ 0xd7c6
      ∨ code = 0x16d63 ∨ 0x16d67 ≤ code ∧ code ≤ 0x16d6a then some vowel
  else if 0x11a8 ≤ code ∧ code ≤ 0x11ff ∨ 0xd7cb ≤ code ∧ code ≤ 0xd7fb then some trailing
  else none

/-- The class of a character. ASCII is decided without the tables. -/
def ofChar (c : Char) : ClusterClass :=
  if c = '\r' then carriageReturn
  else if c = '\n' then lineFeed
  else if c.toNat < 0x20 ∨ c.toNat = 0x7f then control
  else if c.toNat < 0x80 then other
  else if c.toNat = 0x200c then nonJoiner
  else if c.toNat = 0x200d then joiner
  else if 0x1f1e6 ≤ c.toNat ∧ c.toNat ≤ 0x1f1ff then regional
  else if inRanges controlRanges c then control
  else if inRanges linkerRanges c then linker
  else if inRanges extendRanges c then extend
  else if inRanges spacingRanges c then spacing
  else if inRanges prependRanges c then prepend
  else if inRanges consonantRanges c then consonant
  else if inRanges pictographicRanges c then pictographic
  else (hangul? c.toNat).getD other

/-- Whether characters of the class stand alone, except that a carriage return and a line feed make
one line end. -/
def standsAlone : ClusterClass → Bool
  | carriageReturn | lineFeed | control => true
  | _ => false

/-- Whether the class is one of marks without a width of their own, a joiner apart. -/
def extending : ClusterClass → Bool
  | extend | linker | nonJoiner => true
  | _ => false

/-- Whether the second class goes on with a Hangul syllable that the first has begun. -/
def continuesSyllable : ClusterClass → ClusterClass → Bool
  | leading, leading | leading, vowel | leading, openSyllable | leading, closedSyllable => true
  | openSyllable, vowel | openSyllable, trailing | vowel, vowel | vowel, trailing => true
  | closedSyllable, trailing | trailing, trailing => true
  | _, _ => false

/-- Whether the characters before, the last one first, are a consonant and marks with a linker
among them; `linked` says that one was seen already. -/
def awaitsConsonant (linked : Bool) : List ClusterClass → Bool
  | linker :: before => awaitsConsonant true before
  | extend :: before | joiner :: before => awaitsConsonant linked before
  | consonant :: _ => linked
  | _ => false

/-- Whether the characters before, the last one first, are a pictograph, marks and a joiner. -/
def awaitsPictograph : List ClusterClass → Bool
  | joiner :: before => (before.dropWhile extending).head? = some pictographic
  | _ => false

/-- Whether the characters before, the last one first, end in half a flag. -/
def awaitsRegional (before : List ClusterClass) : Bool :=
  (before.takeWhile (· = regional)).length % 2 = 1

/-- Whether a character stays in the cluster before it, which is given from its last character to
its first. An empty cluster takes nothing. -/
def joins (before : List ClusterClass) (next : ClusterClass) : Bool :=
  match before with
  | [] => false
  | last :: _ =>
    if last = carriageReturn ∧ next = lineFeed then true
    else if last.standsAlone || next.standsAlone then false
    else
      continuesSyllable last next || next.extending || next = joiner || next = spacing
        || last = prepend || (next = consonant && awaitsConsonant false before)
        || (next = pictographic && awaitsPictograph before)
        || (next = regional && awaitsRegional before)

end ClusterClass

/-- The rest of the cluster whose first characters have the classes `before`, and the clusters
behind it. -/
def divide (before : List ClusterClass) : List Char → List Char × List (List Char)
  | [] => ([], [])
  | c :: text =>
    let next := ClusterClass.ofChar c
    if ClusterClass.joins before next then
      let (cluster, others) := divide (next :: before) text
      (c :: cluster, others)
    else
      let (cluster, others) := divide [next] text
      ([], (c :: cluster) :: others)

def clusters (text : List Char) : List (List Char) :=
  (divide [] text).2

theorem divide_append (before : List ClusterClass) (text : List Char) :
    (divide before text).1 ++ (divide before text).2.flatten = text := by
  induction text generalizing before with
  | nil => rfl
  | cons c text ih =>
    simp only [divide]
    split
    · simpa using ih _
    · simpa using ih _

theorem divide_nil_fst (text : List Char) : (divide [] text).1 = [] := by
  cases text <;> rfl

/-- Nothing of the text is lost. -/
theorem flatten_clusters (text : List Char) : (clusters text).flatten = text := by
  have h := divide_append [] text
  rwa [divide_nil_fst, List.nil_append] at h

theorem ne_nil_of_mem_divide {before : List ClusterClass} {text cluster : List Char}
    (h : cluster ∈ (divide before text).2) : cluster ≠ [] := by
  induction text generalizing before with
  | nil => simp [divide] at h
  | cons c text ih =>
    simp only [divide] at h
    split at h
    · exact ih h
    · rcases List.mem_cons.1 h with rfl | h
      · simp
      · exact ih h

/-- No cluster is empty. -/
theorem ne_nil_of_mem_clusters {text cluster : List Char} (h : cluster ∈ clusters text) :
    cluster ≠ [] :=
  ne_nil_of_mem_divide h

end SnippetRewrite
