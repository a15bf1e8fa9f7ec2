import Mathlib.Data.List.Induction
import SnippetRewrite.Proofs.Parse.Lines
import SnippetRewrite.Proofs.Parse.Storing

/-!
The places that syntax errors point at. An error lies at a cursor that the reader has reached, so the
text there is what is left of the source behind some beginning of it, and the line and the column are
those of the end of that beginning. The same two numbers come out when nothing but the text that is
left is known: its offset is looked up in a table of the offsets at which lines start, by halving, and
the characters between the start of the line and the offset are counted. Offsets count bytes; the
lookup stays within the table and cuts no character.
-/

namespace SnippetRewrite

/-! ### Positions behind a text -/

/-- The characters behind the last line feed. -/
def lastLine (cs : List Char) : List Char :=
  (cs.reverse.takeWhile (· ≠ '\n')).reverse

/-- The characters up to the last line feed. -/
def wholeLines (cs : List Char) : List Char :=
  (cs.reverse.dropWhile (· ≠ '\n')).reverse

theorem wholeLines_append_lastLine (cs : List Char) : wholeLines cs ++ lastLine cs = cs := by
  rw [wholeLines, lastLine, ← List.reverse_append, List.takeWhile_append_dropWhile,
    List.reverse_reverse]

theorem lastLine_concat (cs : List Char) (c : Char) :
    lastLine (cs ++ [c]) = if c = '\n' then [] else lastLine cs ++ [c] := by
  by_cases hc : c = '\n' <;> simp [lastLine, hc]

theorem wholeLines_concat (cs : List Char) (c : Char) :
    wholeLines (cs ++ [c]) = if c = '\n' then cs ++ [c] else wholeLines cs := by
  by_cases hc : c = '\n' <;> simp [wholeLines, hc]

namespace Position

def behind (cs : List Char) : Position :=
  cs.foldl past start

theorem behind_eq (cs : List Char) :
    behind cs = ⟨1 + cs.count '\n', 1 + (lastLine cs).length⟩ := by
  induction cs using List.reverseRecOn with
  | nil => rfl
  | append_singleton cs c ih =>
      rw [behind, List.foldl_append, ← behind, ih, lastLine_concat, List.count_append]
      by_cases hc : c = '\n'
      · simp [past, hc, Nat.add_assoc]
      · simp [past, hc, Nat.add_assoc]

end Position

namespace Cursor

theorem advance_eq (n : Nat) (c : Cursor) :
    c.advance n = ⟨c.rest.drop n, (c.rest.take n).foldl Position.past c.position⟩ := by
  fun_induction advance n c <;> simp_all

/-- What lies ahead of a cursor in a source, and where the cursor stands. -/
theorem reaches_start {source : List Char} {d : Cursor} (h : (Cursor.start source).Reaches d) :
    ∃ pre, source = pre ++ d.rest ∧ d.position = Position.behind pre := by
  obtain ⟨n, rfl⟩ := h
  rw [advance_eq]
  exact ⟨source.take n, (List.take_append_drop n source).symm, rfl⟩

end Cursor

/-! ### Offsets in bytes -/

def byteLength : List Char → Nat
  | [] => 0
  | c :: cs => c.utf8Size + byteLength cs

@[simp] theorem byteLength_nil : byteLength [] = 0 := rfl

@[simp] theorem byteLength_cons (c : Char) (cs : List Char) :
    byteLength (c :: cs) = c.utf8Size + byteLength cs := rfl

@[simp] theorem byteLength_append (cs ds : List Char) :
    byteLength (cs ++ ds) = byteLength cs + byteLength ds := by
  induction cs with
  | nil => simp
  | cons c cs ih => simp [ih, Nat.add_assoc]

/-- A text cut behind so many bytes; none inside a character or behind the end. -/
def splitBytes : Nat → List Char → Option (List Char × List Char)
  | 0, cs => some ([], cs)
  | _ + 1, [] => none
  | n + 1, c :: cs =>
    if c.utf8Size ≤ n + 1 then
      (splitBytes (n + 1 - c.utf8Size) cs).map fun (front, rest) => (c :: front, rest)
    else none

theorem splitBytes_append (cs rest : List Char) :
    splitBytes (byteLength cs) (cs ++ rest) = some (cs, rest) := by
  induction cs with
  | nil => simp [splitBytes]
  | cons c cs ih =>
      obtain ⟨n, hn⟩ := Nat.exists_eq_add_one.mpr c.utf8Size_pos
      rw [byteLength_cons, hn, Nat.add_right_comm, List.cons_append, splitBytes, if_pos (by omega),
        show n + byteLength cs + 1 - c.utf8Size = byteLength cs by omega, ih]
      rfl

/-- The characters between two offsets; none if an offset lies inside a character or behind the end,
or if they are in the wrong order. -/
def slice? (source : List Char) (start stop : Nat) : Option (List Char) :=
  if start ≤ stop then do
    let (_, rest) ← splitBytes start source
    let (front, _) ← splitBytes (stop - start) rest
    pure front
  else none

/-! ### The table of lines -/

/-- The offsets at which the lines behind the first one start in a text that starts at an offset. -/
def laterStarts : Nat → List Char → List Nat
  | _, [] => []
  | offset, c :: cs =>
    let next := offset + c.utf8Size
    if c = '\n' then next :: laterStarts next cs else laterStarts next cs

def lineStarts (source : List Char) : Array Nat :=
  (0 :: laterStarts 0 source).toArray

/-- Looks for an offset among `size` entries of a table from `base` on by halving, and answers the
entry where it is left; none if an entry is looked at that the table does not have. -/
def halve (table : Array Nat) (offset base size : Nat) : Option Nat :=
  if size ≤ 1 then some base
  else do
    let middle ← table[base + size / 2]?
    halve table offset (if offset < middle then base else base + size / 2) (size - size / 2)
termination_by size

/-- The place of an offset in a table, or else the place where it would have to be inserted. -/
def search? (table : Array Nat) (offset : Nat) : Option (Except Nat Nat) := do
  let base ← halve table offset 0 table.size
  let entry ← table[base]?
  pure (if entry = offset then .ok base else .error (if entry < offset then base + 1 else base))

/-- The position of what is left of a source, from its length alone; none if the text that is left is
longer than the source, if the table of lines has no entry for the line, or if an offset lies inside a
character. -/
def place? (source rest : List Char) : Option Position :=
  if byteLength source < byteLength rest then none
  else do
    let offset := byteLength source - byteLength rest
    let line ←
      match ← search? (lineStarts source) offset with
      | .ok index => pure (index + 1)
      | .error index => pure index
    if line = 0 then none
    else
      let start ← (lineStarts source)[line - 1]?
      let before ← slice? source start offset
      pure ⟨line, before.length + 1⟩

section table

variable {table : Array Nat} {offset k : Nat}

/-- Halving ends at the last entry that is not beyond the offset. -/
theorem halve_eq (hk : ∀ i (h : i < table.size), table[i] ≤ offset ↔ i ≤ k) {base size : Nat}
    (hsize : base + size ≤ table.size) (hbase : base ≤ k) (hk' : k < base + size) :
    halve table offset base size = some k := by
  induction size using Nat.strongRecOn generalizing base with
  | ind size ih =>
      rw [halve]
      by_cases hone : size ≤ 1
      · rw [if_pos hone, show base = k by omega]
      · have hmiddle : base + size / 2 < table.size := by omega
        rw [if_neg hone, Array.getElem?_eq_getElem hmiddle, Option.bind_eq_bind, Option.bind_some]
        by_cases hle : table[base + size / 2] ≤ offset
        · rw [if_neg (by omega)]
          have := (hk _ hmiddle).mp hle
          exact ih _ (by omega) (by omega) (by omega) (by omega)
        · rw [if_pos (by omega)]
          have : ¬base + size / 2 ≤ k := fun h => hle ((hk _ hmiddle).mpr h)
          exact ih _ (by omega) (by omega) (by omega) (by omega)

end table

theorem laterStarts_append (offset : Nat) (cs ds : List Char) :
    laterStarts offset (cs ++ ds) =
      laterStarts offset cs ++ laterStarts (offset + byteLength cs) ds := by
  induction cs generalizing offset with
  | nil => rfl
  | cons c cs ih =>
      rw [List.cons_append, laterStarts, laterStarts, ih, byteLength_cons, ← Nat.add_assoc]
      split <;> rfl

theorem length_laterStarts (offset : Nat) (cs : List Char) :
    (laterStarts offset cs).length = cs.count '\n' := by
  induction cs generalizing offset with
  | nil => rfl
  | cons c cs ih =>
      rw [laterStarts]
      by_cases hc : c = '\n' <;> simp [hc, ih]

/-- The lines of a text start behind its beginning and not behind its end. -/
theorem mem_laterStarts {offset start : Nat} {cs : List Char} (h : start ∈ laterStarts offset cs) :
    offset < start ∧ start ≤ offset + byteLength cs := by
  induction cs generalizing offset with
  | nil => cases h
  | cons c cs ih =>
      have hpos := c.utf8Size_pos
      rw [laterStarts] at h
      rw [byteLength_cons]
      have hlater (h : start ∈ laterStarts (offset + c.utf8Size) cs) :
          offset < start ∧ start ≤ offset + (c.utf8Size + byteLength cs) := by
        have := ih h
        omega
      split at h
      · rcases List.mem_cons.mp h with rfl | h
        · omega
        · exact hlater h
      · exact hlater h

/-- The last line of a text starts behind the lines that end in it. -/
theorem getLast_starts (cs : List Char) :
    (0 :: laterStarts 0 cs)[cs.count '\n']? = some (byteLength (wholeLines cs)) := by
  induction cs using List.reverseRecOn with
  | nil => rfl
  | append_singleton cs c ih =>
      rw [laterStarts_append, List.count_append, wholeLines_concat]
      by_cases hc : c = '\n'
      · simp [hc, laterStarts, length_laterStarts]
      · simpa [hc, laterStarts] using ih

variable {pre post : List Char}

/-- The lines that start at or before the place between two parts of a text are those that start in
the first part. -/
theorem lineStarts_le_iff (i : Nat) (hi : i < (lineStarts (pre ++ post)).size) :
    (lineStarts (pre ++ post))[i] ≤ byteLength pre ↔ i ≤ pre.count '\n' := by
  have hlength := length_laterStarts 0 pre
  simp only [lineStarts, List.getElem_toArray, laterStarts_append, Nat.zero_add]
  cases i with
  | zero => simp
  | succ i =>
      rw [List.getElem_cons_succ, List.getElem_append]
      split
      · rename_i hfront
        have hmem := mem_laterStarts (List.getElem_mem hfront)
        omega
      · rename_i hbehind
        have hbound :
            i - (laterStarts 0 pre).length < (laterStarts (byteLength pre) post).length := by
          simp only [lineStarts, laterStarts_append, Nat.zero_add, List.size_toArray,
            List.length_cons, List.length_append] at hi
          omega
        have hmem := mem_laterStarts (List.getElem_mem hbound)
        omega

/-- The place between two parts of a text is found. -/
theorem place?_eq (pre post : List Char) :
    place? (pre ++ post) post = some (Position.behind pre) := by
  have hsize : pre.count '\n' < (lineStarts (pre ++ post)).size := by
    simp only [lineStarts, laterStarts_append, List.size_toArray, List.length_cons,
      List.length_append, length_laterStarts]
    omega
  have hbase : halve (lineStarts (pre ++ post)) (byteLength pre) 0 (lineStarts (pre ++ post)).size =
      some (pre.count '\n') :=
    halve_eq lineStarts_le_iff (by omega) (Nat.zero_le _) (by omega)
  have hentry : (lineStarts (pre ++ post))[pre.count '\n']? = some (byteLength (wholeLines pre)) := by
    have hlast := getLast_starts pre
    rw [lineStarts, List.getElem?_toArray, laterStarts_append, ← List.cons_append,
      List.getElem?_append_left (by simp [length_laterStarts]), hlast]
  have hbytes : byteLength pre = byteLength (wholeLines pre) + byteLength (lastLine pre) := by
    rw [← byteLength_append, wholeLines_append_lastLine]
  have hslice : slice? (pre ++ post) (byteLength (wholeLines pre)) (byteLength pre) =
      some (lastLine pre) := by
    have hfront : splitBytes (byteLength (wholeLines pre)) (pre ++ post) =
        some (wholeLines pre, lastLine pre ++ post) := by
      rw [← splitBytes_append, ← List.append_assoc, wholeLines_append_lastLine]
    rw [slice?, if_pos (by omega), hfront]
    simp [hbytes, splitBytes_append]
  -- the line starts at the place itself or before it; both ways the lookup gives its number
  have hsearch : search? (lineStarts (pre ++ post)) (byteLength pre) = some (.ok (pre.count '\n')) ∨
      search? (lineStarts (pre ++ post)) (byteLength pre) = some (.error (pre.count '\n' + 1)) := by
    simp only [search?, hbase, hentry, Option.bind_eq_bind, Option.bind_some, Option.pure_def]
    by_cases hat : byteLength (wholeLines pre) = byteLength pre
    · exact .inl (by simp [hat])
    · exact .inr (by simp [hat, show byteLength (wholeLines pre) < byteLength pre by omega])
  have hoffset : byteLength (pre ++ post) - byteLength post = byteLength pre := by
    rw [byteLength_append, Nat.add_sub_cancel]
  have hfits : ¬byteLength (pre ++ post) < byteLength post := by
    rw [byteLength_append]
    omega
  rw [place?, if_neg hfits, hoffset, Position.behind_eq, Nat.add_comm 1, Nat.add_comm 1]
  rcases hsearch with h | h <;> simp [h, hentry, hslice]

/-! ### Errors -/

/-- How an error quotes the text that it points at: the beginning of the first line, blanks at its
ends left out, or the end of the input if there is nothing else on that line. -/
theorem nearText_eq (rest : List Char) :
    nearText rest = if trim (firstLine rest) = [] then " at end of input"
      else " near `" ++ String.ofList ((trim (firstLine rest)).take 16) ++ "`" := by
  unfold nearText
  cases trim (firstLine rest) with
  | nil => rfl
  | cons c cs => rfl

/-- A syntax error points at a real position. On every source that is refused, under whatever sigil,
the error lies behind some beginning of the source: its line and its column are those of the end of
that beginning, and it quotes the text that follows. Looking the position up by the offset of that
text gives the same line and column: no offset is negative, the table of lines has the entry, and no
character is cut. -/
theorem parseUnit_error_place {sigil : Char} {source origin : String} {e : ParseError}
    (h : parseUnit sigil source origin = .error e) :
    ∃ pre post, source.toList = pre ++ post ∧
      e.line = 1 + pre.count '\n' ∧ e.column = 1 + (lastLine pre).length ∧
      (∃ cause : SyntaxCause, e.detail = cause.message ++
        if trim (firstLine post) = [] then " at end of input"
        else " near `" ++ String.ofList ((trim (firstLine post)).take 16) ++ "`") ∧
      place? source.toList post = some ⟨e.line, e.column⟩ := by
  have hends := (program_ends sigil source.toList).2
  rw [parseUnit_eq, readProgram] at h
  let g : TreeGrammar := Grammar.ofLength sigil source.toList.length
  cases hread : g.program (Cursor.start source.toList) with
  | ok r =>
      rw [hread] at h
      cases h
  | error failure =>
      rw [hread] at h
      cases h
      obtain ⟨pre, hsource, hposition⟩ := Cursor.reaches_start (hends failure hread)
      rw [Position.behind_eq] at hposition
      refine ⟨pre, failure.place.rest, hsource, congrArg Position.line hposition,
        congrArg Position.column hposition, ⟨failure.cause, ?_⟩, ?_⟩
      · rw [← nearText_eq]
        rfl
      · rw [hsource, place?_eq, Position.behind_eq, ← hposition]
        rfl

/-- An operand is missing on the second line, behind a character of two bytes. -/
theorem parseUnit_missing_operand :
    parseUnit defaultSigil "f();\n  é = ;" "unit" =
        .error ⟨"unit", 2, 7, "expected expression near `;`"⟩ ∧
      ∃ pre post, "f();\n  é = ;".toList = pre ++ post ∧ 2 = 1 + pre.count '\n' ∧
        7 = 1 + (lastLine pre).length ∧ place? "f();\n  é = ;".toList post = some ⟨2, 7⟩ := by
  have hparse : parseUnit defaultSigil "f();\n  é = ;" "unit" =
      .error ⟨"unit", 2, 7, "expected expression near `;`"⟩ := by decide +kernel
  obtain ⟨pre, post, hsource, hline, hcolumn, -, hplace⟩ := parseUnit_error_place hparse
  exact ⟨hparse, pre, post, hsource, hline, hcolumn, hplace⟩

end SnippetRewrite
