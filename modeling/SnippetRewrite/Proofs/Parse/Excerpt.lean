import Mathlib.Data.Option.Basic
import Mathlib.Logic.Relator
import SnippetRewrite.Proofs.Parse.Token

/-!
A text on its own and inside a longer one. The longer text may go on behind it, on a line of its own,
and lines may stand before it. A cursor in the text on its own is linked to one in the longer text
that stands before the same character. What the next token is shows at both in the same way, except
in two cases: at the end of the text on its own, and at a comment that is opened there but closed only
in what follows.
-/

namespace SnippetRewrite

/-! ### Trees further down -/

namespace Tree

variable {k line : Nat} {slots : List (Option Tree)}

def moved (k : Nat) (t : Tree) : Tree :=
  t.fold fun line label slots => .node (line + k) label slots

@[simp] theorem moved_node (k line : Nat) (label : Label) (slots : List (Option Tree)) :
    (node line label slots).moved k = node (line + k) label (slots.map (Option.map (moved k))) :=
  fold_node _ _ _ _

@[simp] theorem moved_name (text : String) : (name text line).moved k = name text (line + k) :=
  moved_node _ _ _ _

@[simp] theorem moved_var (text : String) : (var text line).moved k = var text (line + k) := by
  simp [var]

@[simp] theorem moved_literal (value : Value) :
    (literal value line).moved k = literal value (line + k) :=
  moved_node _ _ _ _

@[simp] theorem moved_fixed (kind : FixedKind) :
    (fixed kind slots line).moved k = fixed kind (slots.map (Option.map (moved k))) (line + k) :=
  moved_node _ _ _ _

@[simp] theorem moved_list (kind : ListKind) (items : List Tree) :
    (list kind items line).moved k = list kind (items.map (moved k)) (line + k) := by
  simp [list]

@[simp] theorem line_moved (k : Nat) (t : Tree) : (t.moved k).line = t.line + k := by
  obtain ⟨line, label, slots⟩ := t
  rw [moved_node]
  rfl

mutual

theorem moved_zero : (t : Tree) → t.moved 0 = t
  | node line label slots => by rw [moved_node, map_moved_zero slots]; rfl

theorem map_moved_zero : (slots : List (Option Tree)) → slots.map (Option.map (moved 0)) = slots
  | [] => rfl
  | none :: slots => by rw [List.map_cons, map_moved_zero slots]; rfl
  | some t :: slots => by rw [List.map_cons, map_moved_zero slots, Option.map_some, moved_zero t]

end

end Tree

/-! ### Positions -/

namespace Position

def moved (k : Nat) (p : Position) : Position :=
  ⟨p.line + k, p.column⟩

theorem past_moved (k : Nat) (p : Position) (c : Char) : (p.moved k).past c = (p.past c).moved k := by
  unfold past moved
  split
  · simp only [Nat.add_right_comm]
  · rfl

theorem line_past (p : Position) (c : Char) (cs : List Char) :
    (p.past c).line + cs.count '\n' = p.line + (c :: cs).count '\n' := by
  unfold past
  split
  · rename_i hc
    rw [hc, List.count_cons_self, Nat.add_right_comm, Nat.add_assoc]
  · rename_i hc
    rw [List.count_cons_of_ne hc]

end Position

/-! ### Separators and comments in front of more text -/

theorem skipTrivia_moved (k : Nat) (m : Trivia) (p : Position) (cs : List Char) :
    skipTrivia m (p.moved k) cs =
      ⟨(skipTrivia m p cs).rest, (skipTrivia m p cs).position.moved k⟩ := by
  fun_induction skipTrivia m p cs with
  | case1 | case4 | case7 => simp_all [skipTrivia]
  | case2 _ _ ih | case3 _ _ _ ih | case5 _ _ _ _ _ _ ih | case8 _ _ _ ih | case9 _ _ ih
  | case10 _ _ _ _ ih =>
      simp_all only [skipTrivia, if_true, ← Position.past_moved]
  | case6 _ _ _ _ _ ih =>
      rw [← ih, ← Position.past_moved]
      rfl

theorem line_skipTrivia (m : Trivia) (p : Position) (cs : List Char) :
    (skipTrivia m p cs).position.line + (skipTrivia m p cs).rest.count '\n' =
      p.line + cs.count '\n' := by
  fun_induction skipTrivia m p cs with
  | case1 | case4 | case7 => rfl
  | case2 _ _ ih | case3 _ _ _ ih | case9 _ _ ih =>
      rw [ih, Position.line_past, Position.line_past]
  | case5 _ _ _ _ _ _ ih | case6 _ _ _ _ _ ih | case8 _ _ _ ih | case10 _ _ _ _ ih =>
      rw [ih, Position.line_past]

theorem closesComment_cons {c : Char} {cs : List Char} (h : closesComment cs = true) :
    closesComment (c :: cs) = true := by
  unfold closesComment
  split
  · rfl
  · rename_i heq
    cases heq
    exact h
  · rename_i heq
    cases heq

theorem closesComment_append {cs : List Char} (h : closesComment cs = true) (tail : List Char) :
    closesComment (cs ++ tail) = true := by
  fun_induction closesComment cs with
  | case1 => rfl
  | case2 _ _ _ ih => exact closesComment_cons (ih h)
  | case3 => cases h

/-- What is skipped in front of a token is skipped in front of it, whatever follows the text on lines
of its own. -/
theorem skipTrivia_append (m : Trivia) (p : Position) (cs rest : List Char)
    (hend : (skipTrivia m p cs).rest ≠ [])
    (hcomment : ∀ inner, (skipTrivia m p cs).rest ≠ '/' :: '*' :: inner) :
    skipTrivia m p (cs ++ '\n' :: rest) =
      ⟨(skipTrivia m p cs).rest ++ '\n' :: rest, (skipTrivia m p cs).position⟩ := by
  fun_induction skipTrivia m p cs with
  | case1 => exact absurd rfl hend
  | case2 p cs ih => exact ih hend hcomment
  | case3 p cs hcloses ih =>
      rw [List.cons_append, List.cons_append, skipTrivia, if_pos (closesComment_append hcloses _)]
      exact ih hend hcomment
  | case4 p cs => exact absurd rfl (hcomment cs)
  | case5 p c cs hline hblock hsep ih =>
      have hc : c ≠ '/' := by rintro rfl; cases hsep
      simp_all [skipTrivia]
  | case6 p cs _ _ _ ih => exact ih hend hcomment
  | case7 p c cs hline hblock hsep hhash =>
      -- a slash at the end of the text begins no comment, for a line feed follows
      cases cs <;> simp_all [skipTrivia]
  | case8 p c cs ih =>
      rw [List.cons_append, skipTrivia]
      exact ih hend hcomment
  | case9 p cs ih => exact ih hend hcomment
  | case10 p c cs hstar ih =>
      cases cs <;> simp_all [skipTrivia]

/-- Behind separators and comments up to the end of a text comes what is skipped in front of the
following lines. -/
theorem skipTrivia_through (m : Trivia) (p : Position) (cs rest : List Char)
    (hend : (skipTrivia m p cs).rest = []) (hm : m = .blockComment → closesComment cs = true) :
    skipTrivia m p (cs ++ '\n' :: rest) =
      skipTrivia .between ((skipTrivia m p cs).position.past '\n') rest := by
  fun_induction skipTrivia m p cs with
  | case1 m p =>
      cases m with
      | between => rfl
      | lineComment => rfl
      | blockComment => exact absurd (hm rfl) (by decide)
  | case2 p cs ih => exact ih hend (by simp)
  | case3 p cs hcloses ih =>
      rw [List.cons_append, List.cons_append, skipTrivia, if_pos (closesComment_append hcloses _)]
      exact ih hend fun _ => hcloses
  | case4 p cs => cases hend
  | case5 p c cs hline hblock hsep ih =>
      have hc : c ≠ '/' := by rintro rfl; cases hsep
      simp_all [skipTrivia]
  | case6 p cs _ _ _ ih => exact ih hend (by simp)
  | case7 p c cs hline hblock hsep hhash => cases hend
  | case8 p c cs ih =>
      rw [List.cons_append, skipTrivia]
      exact ih hend fun h => absurd h (by split <;> simp)
  | case9 p cs ih => exact ih hend (by simp)
  | case10 p c cs hstar ih =>
      have hcloses : closesComment cs = true := by
        have hm := hm rfl
        unfold closesComment at hm
        split at hm <;> simp_all
      cases cs with
      | nil => cases hcloses
      | cons d cs =>
          have hih := ih hend fun _ => hcloses
          simp_all [skipTrivia]

/-! ### Texts in longer ones -/

structure Excerpt where
  /-- The text behind it, which begins on a line of its own. -/
  tail : List Char
  /-- The number of lines before its first. -/
  lines : Nat
  /-- Its last line, counted from its own first. -/
  last : Nat
  tail_eq : tail = [] ∨ ∃ rest, tail = '\n' :: rest
  /-- What follows does not go on with the alternative of an `if`. -/
  no_else : ∀ word ∈ ["else", "elseif"], ∀ cs, nextWord? tail ≠ some (word, cs)

namespace Excerpt

variable {e : Excerpt} {c d c' d' : Cursor} {text cs : List Char} {symbol word : String}

/-- Cursors in the text on its own and in the longer text, in front of the same character. -/
structure Links (e : Excerpt) (c d : Cursor) : Prop where
  rest_eq : d.rest = c.rest ++ e.tail
  position_eq : d.position = c.position.moved e.lines
  last_eq : c.position.line + c.rest.count '\n' = e.last

/-- No token comes any more in the text on its own, while more text follows. -/
def Ended (e : Excerpt) (c : Cursor) : Prop :=
  e.tail ≠ [] ∧ c.skip.rest = []

/-- A comment is opened that is not closed in the text on its own, while more text follows. -/
def Stuck (e : Excerpt) (c : Cursor) : Prop :=
  e.tail ≠ [] ∧ ∃ inner, c.skip.rest = '/' :: '*' :: inner

theorem ended_skip : e.Ended c.skip ↔ e.Ended c := by
  rw [Ended, Ended, skip_skip]

theorem stuck_skip : e.Stuck c.skip ↔ e.Stuck c := by
  rw [Stuck, Stuck, skip_skip]

theorem Links.skip (h : e.Links c d) (hended : ¬e.Ended c) (hstuck : ¬e.Stuck c) :
    e.Links c.skip d.skip := by
  have hskip : d.skip = ⟨c.skip.rest ++ e.tail, c.skip.position.moved e.lines⟩ := by
    rw [Cursor.skip, h.rest_eq, h.position_eq, skipTrivia_moved]
    rcases e.tail_eq with htail | ⟨rest, htail⟩
    · rw [htail, List.append_nil, List.append_nil]
      rfl
    · have hend : c.skip.rest ≠ [] := fun hc => hended ⟨by simp [htail], hc⟩
      have hcomment (inner : List Char) : c.skip.rest ≠ '/' :: '*' :: inner :=
        fun hc => hstuck ⟨by simp [htail], inner, hc⟩
      rw [htail, skipTrivia_append _ _ _ _ hend hcomment]
      rfl
  exact ⟨by rw [hskip], by rw [hskip], (line_skipTrivia _ _ _).trans h.last_eq⟩

theorem Links.advance (h : e.Links c d) {n : Nat} (hn : n ≤ c.rest.length) :
    e.Links (c.advance n) (d.advance n) := by
  induction n generalizing c d with
  | zero => exact h
  | succ n ih =>
      obtain ⟨cs, p⟩ := c
      obtain ⟨ds, q⟩ := d
      cases cs with
      | nil => cases hn
      | cons ch cs =>
          obtain ⟨rfl, rfl, hlast⟩ := h
          refine ih ⟨rfl, Position.past_moved _ _ _, ?_⟩ (Nat.le_of_succ_le_succ hn)
          exact (Position.line_past p ch cs).trans hlast

/-- A text without line feeds is in front of the following lines if it is in front of the text. -/
theorem isSome_afterStart_tail (e : Excerpt) (htext : '\n' ∉ text) (cs : List Char) :
    (afterStart text (cs ++ e.tail)).isSome = (afterStart text cs).isSome := by
  induction text generalizing cs with
  | nil => rfl
  | cons c text ih =>
      rw [List.mem_cons, not_or] at htext
      obtain ⟨hc, htext⟩ := htext
      cases cs with
      | nil =>
          rcases e.tail_eq with h | ⟨rest, h⟩
          · rw [h]
            rfl
          · simp [h, afterStart, Ne.symm hc]
      | cons d cs =>
          rw [List.cons_append, afterStart, afterStart]
          split
          · exact ih htext cs
          · rfl

theorem Links.past? (h : e.Links c d) (htext : '\n' ∉ text) :
    Option.Rel e.Links (c.past? text) (d.past? text) := by
  rw [Cursor.past?, Cursor.past?, h.rest_eq, isSome_afterStart_tail e htext]
  split
  · rename_i hsome
    obtain ⟨rest, hrest⟩ := Option.isSome_iff_exists.mp hsome
    refine .some (h.advance ?_)
    rw [eq_append_of_afterStart hrest, List.length_append]
    exact Nat.le_add_right _ _
  · exact .none

/-- Tokens that are the same, with linked cursors behind them. -/
def LinksBehind (e : Excerpt) (r s : String × Cursor) : Prop :=
  r.1 = s.1 ∧ e.Links r.2 s.2

theorem Links.symbolHere? (h : e.Links c d) :
    Option.Rel e.LinksBehind c.symbolHere? d.symbolHere? := by
  have htable : ∀ entry ∈ symbolTable, '\n' ∉ entry.1 := by decide
  rw [Cursor.symbolHere?, Cursor.symbolHere?]
  generalize symbolTable = table at htable ⊢
  induction table with
  | nil => exact .none
  | cons entry table ih =>
      obtain ⟨hentry, htable⟩ := List.forall_mem_cons.mp htable
      have hpast := h.past? hentry
      rw [List.findSome?_cons, List.findSome?_cons]
      dsimp only
      generalize c.past? entry.1 = r, d.past? entry.1 = r' at hpast ⊢
      cases hpast with
      | none => exact ih htable
      | some hlinks => exact .some ⟨rfl, hlinks⟩

/-- Where no case is exceptional, the same symbol comes next. -/
theorem Links.symbol? (h : e.Links c d) (hended : ¬e.Ended c) (hstuck : ¬e.Stuck c) :
    Option.Rel e.LinksBehind c.symbol? d.symbol? :=
  (h.skip hended hstuck).symbolHere?

theorem takeWhile_tail (e : Excerpt) {p : Char → Bool} (hp : p '\n' = false) (cs : List Char) :
    (cs ++ e.tail).takeWhile p = cs.takeWhile p := by
  have htail : e.tail.takeWhile p = [] := by
    rcases e.tail_eq with h | ⟨rest, h⟩
    · rw [h]
      rfl
    · rw [h, List.takeWhile_cons_of_neg (by simp [hp])]
  induction cs with
  | nil => exact htail
  | cons c cs ih => simp only [List.cons_append, List.takeWhile_cons, ih]

theorem Links.wordHere? (h : e.Links c d) (hc : c.rest = [] → e.tail = []) (isStart : Char → Bool) :
    Option.Rel e.LinksBehind (c.wordHere? isStart) (d.wordHere? isStart) := by
  cases hrest : c.rest with
  | nil =>
      have hd : d.rest = [] := by rw [h.rest_eq, hrest, hc hrest]; rfl
      simp only [Cursor.wordHere?, hrest, hd]
      exact .none
  | cons first rest =>
      have hd : d.rest = first :: (rest ++ e.tail) := by rw [h.rest_eq, hrest]; rfl
      simp only [Cursor.wordHere?, hrest, hd, takeWhile_tail e (by decide : isWordChar '\n' = false)]
      split
      · refine .some ⟨rfl, h.advance ?_⟩
        rw [hrest, List.length_cons]
        exact Nat.succ_le_succ (List.takeWhile_prefix isWordChar).length_le
      · exact .none

theorem tail_eq_nil (hended : ¬e.Ended c) (h : c.skip.rest = []) : e.tail = [] :=
  Classical.not_not.mp fun htail => hended ⟨htail, h⟩

theorem Links.word? (h : e.Links c d) (hended : ¬e.Ended c) (hstuck : ¬e.Stuck c) :
    Option.Rel e.LinksBehind c.word? d.word? :=
  (h.skip hended hstuck).wordHere? (tail_eq_nil hended) isWordStart

theorem linksBehind_cases {o o' : Option (String × Cursor)} (h : Option.Rel e.LinksBehind o o') :
    (o = none ∧ o' = none) ∨
      ∃ text c d, o = some (text, c) ∧ o' = some (text, d) ∧ e.Links c d := by
  cases h with
  | none => exact .inl ⟨rfl, rfl⟩
  | @some r s h =>
      obtain ⟨heq, hlinks⟩ := h
      exact .inr ⟨r.1, r.2, s.2, rfl, by rw [heq], hlinks⟩

theorem Links.pastSymbol? (h : e.Links c d) (hended : ¬e.Ended c) (hstuck : ¬e.Stuck c)
    (symbol : String) : Option.Rel e.Links (c.pastSymbol? symbol) (d.pastSymbol? symbol) := by
  rw [Cursor.pastSymbol?, Cursor.pastSymbol?]
  rcases linksBehind_cases (h.symbol? hended hstuck) with ⟨hc, hd⟩ | ⟨text, c', d', hc, hd, hlinks⟩
  · rw [hc, hd]
    exact .none
  · rw [hc, hd]
    dsimp only
    split
    · exact .some hlinks
    · exact .none

theorem Links.pastWord? (h : e.Links c d) (hended : ¬e.Ended c) (hstuck : ¬e.Stuck c)
    (word : String) : Option.Rel e.Links (c.pastWord? word) (d.pastWord? word) := by
  rw [Cursor.pastWord?, Cursor.pastWord?]
  rcases linksBehind_cases (h.word? hended hstuck) with ⟨hc, hd⟩ | ⟨text, c', d', hc, hd, hlinks⟩
  · rw [hc, hd]
    exact .none
  · rw [hc, hd]
    dsimp only
    split
    · exact .some hlinks
    · exact .none

/-! ### The exceptional cases -/

theorem Ended.symbol? (h : e.Ended c) : c.symbol? = none := by
  refine symbol?_of_none ?_
  rw [nextSymbol?, ← rest_skip, h.2]
  rfl

theorem Ended.wordHere? (h : e.Ended c) (isStart : Char → Bool) : c.skip.wordHere? isStart = none := by
  rw [Cursor.wordHere?, h.2]

theorem Stuck.wordHere? (h : e.Stuck c) {isStart : Char → Bool} (hslash : isStart '/' = false) :
    c.skip.wordHere? isStart = none := by
  obtain ⟨-, inner, hrest⟩ := h
  rw [Cursor.wordHere?, hrest]
  simp [hslash]

theorem Stuck.symbol? (h : e.Stuck c) :
    ∃ next inner, c.symbol? = some ("/", next) ∧ next.rest = '*' :: inner := by
  obtain ⟨-, inner, hrest⟩ := h
  have hslash : '*' ∉ continuations "/" := by decide
  have hsymbol : nextSymbol? c.rest = some ("/", '*' :: inner) := by
    rw [nextSymbol?, ← rest_skip, hrest]
    exact symbolAt?_append (by decide) hslash
  obtain ⟨next, hnext, hbehind⟩ := symbol?_of_some hsymbol
  exact ⟨next, inner, hnext, hbehind⟩

theorem Ended.pastSymbol? (h : e.Ended c) (symbol : String) : c.pastSymbol? symbol = none := by
  rw [Cursor.pastSymbol?, h.symbol?]

theorem Stuck.pastSymbol? (h : e.Stuck c) (hsymbol : symbol ≠ "/") : c.pastSymbol? symbol = none := by
  obtain ⟨next, inner, hnext, -⟩ := h.symbol?
  rw [Cursor.pastSymbol?, hnext]
  exact if_neg hsymbol.symm

theorem Ended.word? (h : e.Ended c) : c.word? = none := h.wordHere? isWordStart

theorem Stuck.word? (h : e.Stuck c) : c.word? = none := h.wordHere? (by decide)

theorem Ended.pastWord? (h : e.Ended c) (word : String) : c.pastWord? word = none := by
  rw [Cursor.pastWord?, h.word?]

theorem Stuck.pastWord? (h : e.Stuck c) (word : String) : c.pastWord? word = none := by
  rw [Cursor.pastWord?, h.word?]

theorem Ended.not_startsToken (h : e.Ended c) {ch : Char} (hrest : c.rest = ch :: cs) :
    startsToken ch = false := by
  refine Bool.eq_false_iff.mpr fun hch => ?_
  have hskip := h.2
  rw [skip_eq_self hrest hch, hrest] at hskip
  cases hskip

theorem Stuck.not_startsToken (h : e.Stuck c) {ch : Char} (hrest : c.rest = ch :: cs) :
    startsToken ch = false := by
  refine Bool.eq_false_iff.mpr fun hch => ?_
  obtain ⟨-, inner, hskip⟩ := h
  rw [skip_eq_self hrest hch, hrest] at hskip
  cases hskip
  cases hch

theorem Ended.skip_eq (h : e.Ended c) (hlinks : e.Links c d) {rest : List Char}
    (htail : e.tail = '\n' :: rest) :
    d.skip = (Cursor.mk rest ⟨e.last + 1 + e.lines, 1⟩).skip := by
  have hline := (line_skipTrivia .between c.position c.rest).trans hlinks.last_eq
  rw [show skipTrivia .between c.position c.rest = c.skip from rfl, h.2, List.count_nil,
    Nat.add_zero] at hline
  rw [Cursor.skip, hlinks.rest_eq, hlinks.position_eq, htail, skipTrivia_through, skipTrivia_moved]
  · rw [show skipTrivia .between c.position c.rest = c.skip from rfl, Position.past_moved,
      Position.past, if_pos rfl, hline]
    rfl
  · rw [skipTrivia_moved]
    exact h.2
  · intro h
    cases h

/-- Behind the end of the text no alternative of an `if` comes. -/
theorem Links.pastWord?_else (h : e.Links c d) (hended : e.Ended c)
    (hword : word ∈ ["else", "elseif"]) : d.pastWord? word = none := by
  obtain hnil | ⟨rest, htail⟩ := e.tail_eq
  · exact absurd hnil hended.1
  cases hpast : d.pastWord? word with
  | none => rfl
  | some next =>
      have hnext := Cursor.pastWord?_eq_some.mp hpast
      rw [Cursor.word?, hended.skip_eq h htail, ← Cursor.word?] at hnext
      have hrest := word?_eq (Cursor.mk rest ⟨e.last + 1 + e.lines, 1⟩)
      rw [hnext] at hrest
      refine absurd ?_ (e.no_else word hword next.rest)
      rw [htail, nextWord?, skipped_separator rfl, ← nextWord?, ← hrest]
      rfl

/-! ### Literals -/

theorem drop_tail (e : Excerpt) {n : Nat} (h : n ≤ cs.length) :
    (cs ++ e.tail).drop n = cs.drop n ++ e.tail :=
  List.drop_append_of_le_length h

theorem hexDigits?_tail (e : Excerpt) (cs : List Char) : hexDigits? (cs ++ e.tail) = hexDigits? cs := by
  match cs with
  | [] =>
      rcases e.tail_eq with h | ⟨rest, h⟩ <;> rw [h]
      · rfl
      · rfl
  | [c] =>
      rcases e.tail_eq with h | ⟨rest, h⟩ <;> rw [h]
      · rfl
      · by_cases hc : c = '0'
        · subst hc
          rfl
        · simp [hexDigits?, hc]
  | c :: x :: cs =>
      by_cases hc : c = '0'
      · subst hc
        simp only [List.cons_append, hexDigits?, takeWhile_tail e (by decide : isHexDigit '\n' = false)]
      · simp [hexDigits?, hc]

theorem takeWhile_isDigit_tail (e : Excerpt) (cs : List Char) :
    (cs ++ e.tail).takeWhile Char.isDigit = cs.takeWhile Char.isDigit :=
  takeWhile_tail e (by decide) cs

theorem fractionDigits_tail (e : Excerpt) (cs : List Char) :
    fractionDigits (cs ++ e.tail) = fractionDigits cs := by
  cases cs with
  | nil => rcases e.tail_eq with h | ⟨rest, h⟩ <;> rw [h] <;> rfl
  | cons c cs =>
      by_cases hc : c = '.'
      · subst hc
        exact takeWhile_isDigit_tail e cs
      · simp [fractionDigits, hc]

theorem exponentDigits_tail (e : Excerpt) (cs : List Char) :
    exponentDigits (cs ++ e.tail) = exponentDigits cs := by
  match cs with
  | [] => rcases e.tail_eq with h | ⟨rest, h⟩ <;> rw [h] <;> rfl
  | [c] =>
      rcases e.tail_eq with h | ⟨rest, h⟩ <;> rw [h]
      · rfl
      · simp [exponentDigits]
  | c :: sign :: cs =>
      have hsigned := takeWhile_isDigit_tail e (sign :: cs)
      simp only [List.cons_append] at hsigned
      simp only [List.cons_append, exponentDigits, takeWhile_isDigit_tail, hsigned]

theorem length_fractionDigits_lt {cs : List Char} (h : (fractionDigits cs).isEmpty = false) :
    (fractionDigits cs).length + 1 ≤ cs.length := by
  unfold fractionDigits at h ⊢
  split at h
  · exact Nat.succ_le_succ (List.takeWhile_prefix _).length_le
  · cases h

theorem length_exponentDigits_lt {cs : List Char} (h : (exponentDigits cs).isEmpty = false) :
    (exponentDigits cs).length + 1 ≤ cs.length := by
  have hdigits (cs : List Char) : (cs.takeWhile Char.isDigit).length ≤ cs.length :=
    (List.takeWhile_prefix _).length_le
  match cs with
  | [] => cases h
  | [c] => simp [exponentDigits] at h
  | c :: sign :: cs =>
      simp only [exponentDigits] at h ⊢
      split at h
      · rename_i hc
        rw [if_pos hc]
        split at h
        · rename_i hsign
          rw [if_pos hsign]
          have hlength := hdigits cs
          split at h
          · cases h
          · simp only [List.length_cons]
            omega
        · rename_i hsign
          rw [if_neg hsign]
          exact Nat.succ_le_succ (hdigits (sign :: cs))
      · cases h

theorem scan_tail (e : Excerpt) (cs : List Char) :
    DecimalLiteral.scan (cs ++ e.tail) = DecimalLiteral.scan cs := by
  have hwhole : (cs ++ e.tail).drop (cs.takeWhile Char.isDigit).length =
      cs.drop (cs.takeWhile Char.isDigit).length ++ e.tail :=
    drop_tail e (List.takeWhile_prefix _).length_le
  simp only [DecimalLiteral.scan, takeWhile_isDigit_tail, hwhole, fractionDigits_tail]
  split
  · rw [exponentDigits_tail]
  · rename_i hfraction
    rw [drop_tail e (length_fractionDigits_lt (by simpa using hfraction)), exponentDigits_tail]

theorem length_scan_le (cs : List Char) : (DecimalLiteral.scan cs).length ≤ cs.length := by
  have hexponent (rest : List Char) :
      (if (exponentDigits rest).isEmpty then 0 else (exponentDigits rest).length + 1) ≤
        rest.length := by
    split
    · exact Nat.zero_le _
    · exact length_exponentDigits_lt (by simp_all)
  have hwhole : (cs.takeWhile Char.isDigit).length ≤ cs.length :=
    (List.takeWhile_prefix _).length_le
  have hdrop : (cs.drop (cs.takeWhile Char.isDigit).length).length =
      cs.length - (cs.takeWhile Char.isDigit).length := List.length_drop
  unfold DecimalLiteral.scan DecimalLiteral.length
  dsimp only
  split
  · have hbehind := hexponent (cs.drop (cs.takeWhile Char.isDigit).length)
    omega
  · rename_i hempty
    have hfraction := length_fractionDigits_lt (Bool.eq_false_iff.mpr hempty)
    have hbehind := hexponent ((cs.drop (cs.takeWhile Char.isDigit).length).drop
      ((fractionDigits (cs.drop (cs.takeWhile Char.isDigit).length)).length + 1))
    rw [List.length_drop] at hbehind
    omega

theorem length_hexDigits?_le {digits : List Char} (h : hexDigits? cs = some digits) :
    digits.length + 2 ≤ cs.length := by
  unfold hexDigits? at h
  split at h
  · rename_i x rest
    have hdigits : (rest.takeWhile isHexDigit).length ≤ rest.length :=
      (List.takeWhile_prefix _).length_le
    split at h
    · split at h
      · cases h
      · cases h
        exact Nat.succ_le_succ (Nat.succ_le_succ hdigits)
    · cases h
  · cases h

/-- A string that is closed in the text is the same in the longer text. -/
theorem links_readQuoted {quote : Char} {done read : List Char} {p : Position} {next : Cursor}
    (h : readQuoted quote done p cs = some (read, next)) (hlast : p.line + cs.count '\n' = e.last) :
    ∃ next', readQuoted quote done (p.moved e.lines) (cs ++ e.tail) = some (read, next') ∧
      e.Links next next' := by
  fun_induction readQuoted quote done p cs with
  | case1 => cases h
  | case2 done p =>
      cases h
      refine ⟨⟨e.tail, (p.past quote).moved e.lines⟩, ?_, rfl, rfl, ?_⟩
      · rw [← Position.past_moved]
        cases htail : e.tail with
        | nil => simp [readQuoted]
        | cons c tail => simp [readQuoted]
      · exact (Position.line_past p quote []).trans hlast
  | case3 => cases h
  | case4 done p d rest =>
      cases h
      refine ⟨⟨d :: rest ++ e.tail, (p.past quote).moved e.lines⟩, ?_, rfl, rfl, ?_⟩
      · rw [← Position.past_moved]
        simp [readQuoted]
      · exact (Position.line_past p quote _).trans hlast
  | case5 done p d rest hclose ih =>
      obtain ⟨next', hread, hlinks⟩ := ih h (by rw [Position.line_past, Position.line_past, hlast])
      refine ⟨next', ?_, hlinks⟩
      simp only [List.cons_append, readQuoted, if_neg hclose, Position.past_moved]
      exact hread
  | case6 done p c d rest hclose hescape ih =>
      obtain ⟨next', hread, hlinks⟩ := ih h (by rw [Position.line_past, hlast])
      refine ⟨next', ?_, hlinks⟩
      simp only [List.cons_append, readQuoted, if_neg hclose, if_neg hescape, Position.past_moved]
      exact hread

end Excerpt

end SnippetRewrite
