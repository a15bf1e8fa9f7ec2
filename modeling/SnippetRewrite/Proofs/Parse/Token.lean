import Mathlib.Data.Bool.AllAny
import SnippetRewrite.Proofs.Parse.Reader

/-!
Tokens by the characters that are left. Which token comes next does not depend on the position of
the cursor, so what a reader of tokens does is said of lists of characters: the token in front, and
the characters behind it.
-/

namespace SnippetRewrite

/-! ### Separators and comments -/

def skipped (cs : List Char) : List Char :=
  (skipTrivia .between .start cs).rest

theorem rest_skipTrivia (m : Trivia) (p q : Position) (cs : List Char) :
    (skipTrivia m p cs).rest = (skipTrivia m q cs).rest := by
  fun_induction skipTrivia m p cs generalizing q with
  | case1 | case4 | case7 => simp_all [skipTrivia]
  | case2 _ _ ih | case3 _ _ _ ih | case5 _ _ _ _ _ _ ih | case6 _ _ _ _ _ ih | case8 _ _ _ ih
  | case9 _ _ ih | case10 _ _ _ _ ih =>
      simp_all only [skipTrivia, if_true]
      exact ih _

theorem rest_skip (c : Cursor) : c.skip.rest = skipped c.rest :=
  rest_skipTrivia .between c.position .start c.rest

theorem length_skipTrivia_le (m : Trivia) (p : Position) (cs : List Char) :
    (skipTrivia m p cs).rest.length ≤ cs.length := by
  fun_induction skipTrivia m p cs <;> grind

theorem skipTrivia_idem (m : Trivia) (p q : Position) (cs : List Char) :
    skipTrivia .between q (skipTrivia m p cs).rest = ⟨(skipTrivia m p cs).rest, q⟩ := by
  fun_induction skipTrivia m p cs with
  | case1 => simp [skipTrivia]
  | case4 p rest h => simp [skipTrivia, h]
  | case7 p c rest => simp_all [skipTrivia]
  | case2 | case3 | case5 | case6 | case8 | case9 | case10 => assumption

@[simp] theorem skip_skip (c : Cursor) : c.skip.skip = c.skip :=
  skipTrivia_idem .between c.position _ c.rest

theorem skipped_separator {d : Char} (h : isSeparator d = true) (cs : List Char) :
    skipped (d :: cs) = skipped cs := by
  have hcases : d = ' ' ∨ d = '\t' ∨ d = '\r' ∨ d = '\n' := by
    simpa [isSeparator, or_assoc] using h
  rcases hcases with rfl | rfl | rfl | rfl
  all_goals exact rest_skipTrivia .between _ .start cs

def startsToken (c : Char) : Bool :=
  !isSeparator c && c ≠ '/' && c ≠ '#'

theorem skip_eq_self {c : Cursor} {first : Char} {cs : List Char} (hc : c.rest = first :: cs)
    (h : startsToken first = true) : c.skip = c := by
  obtain ⟨rest, p⟩ := c
  subst hc
  simp only [startsToken, Bool.and_eq_true, Bool.not_eq_true', decide_eq_true_eq] at h
  obtain ⟨⟨hsep, hslash⟩, hhash⟩ := h
  simp only [Cursor.skip]
  rw [skipTrivia]
  · simp [hsep, hhash]
  · simp [hslash]
  · simp [hslash]

theorem skipped_eq_self {first : Char} {cs : List Char} (h : startsToken first = true) :
    skipped (first :: cs) = first :: cs := by
  rw [← rest_skip ⟨first :: cs, .start⟩, skip_eq_self rfl h]

/-! ### Symbols -/

/-- The symbol in front of a text, and the text behind it. -/
def symbolAt? (cs : List Char) : Option (String × List Char) :=
  symbolTable.findSome? fun (text, symbol) => (afterStart text cs).map fun rest => (symbol, rest)

/-- The next token of a text, if it is a symbol, and the text behind it. -/
def nextSymbol? (cs : List Char) : Option (String × List Char) :=
  symbolAt? (skipped cs)

theorem nextSymbol?_skip (c : Cursor) : nextSymbol? c.skip.rest = nextSymbol? c.rest := by
  rw [nextSymbol?, nextSymbol?, ← rest_skip, ← rest_skip, skip_skip]

theorem nextSymbol?_ne {cs rest : List Char} {symbol other : String}
    (h : nextSymbol? cs = some (symbol, rest)) (hne : symbol ≠ other) :
    ∀ rest', nextSymbol? cs ≠ some (other, rest') := by
  intro rest' heq
  exact hne (congrArg Prod.fst (Option.some.inj (h.symm.trans heq)))

theorem past?_eq (text : List Char) (c : Cursor) :
    (c.past? text).map Cursor.rest = afterStart text c.rest := by
  rw [Cursor.past?]
  cases h : afterStart text c.rest with
  | none => rfl
  | some rest =>
      have hrest := Cursor.rest_advance text.length c
      rw [eq_append_of_afterStart h, List.drop_left] at hrest
      simp [hrest]

theorem symbolHere?_eq (c : Cursor) :
    c.symbolHere?.map (fun r => (r.1, r.2.rest)) = symbolAt? c.rest := by
  rw [Cursor.symbolHere?, symbolAt?]
  induction symbolTable with
  | nil => rfl
  | cons entry table ih =>
      obtain ⟨text, symbol⟩ := entry
      have hpast := past?_eq text c
      simp only [List.findSome?_cons, ← hpast]
      cases c.past? text with
      | none => exact ih
      | some next => rfl

theorem symbol?_eq (c : Cursor) :
    c.symbol?.map (fun r => (r.1, r.2.rest)) = nextSymbol? c.rest := by
  rw [Cursor.symbol?, symbolHere?_eq, rest_skip, nextSymbol?]

theorem symbol?_of_some {c : Cursor} {symbol : String} {cs : List Char}
    (h : nextSymbol? c.rest = some (symbol, cs)) :
    ∃ d, c.symbol? = some (symbol, d) ∧ d.rest = cs := by
  rw [← symbol?_eq, Option.map_eq_some_iff] at h
  obtain ⟨⟨text, d⟩, hd, heq⟩ := h
  cases heq
  exact ⟨d, hd, rfl⟩

theorem symbol?_of_none {c : Cursor} (h : nextSymbol? c.rest = none) : c.symbol? = none := by
  rwa [← symbol?_eq, Option.map_eq_none_iff] at h

theorem pastSymbol?_of_some {c : Cursor} {symbol : String} {cs : List Char}
    (h : nextSymbol? c.rest = some (symbol, cs)) :
    ∃ d, c.pastSymbol? symbol = some d ∧ d.rest = cs := by
  obtain ⟨d, hd, hrest⟩ := symbol?_of_some h
  exact ⟨d, by simp [Cursor.pastSymbol?, hd], hrest⟩

theorem symbol?_of_pastSymbol? {c : Cursor} {symbol : String} (h : (c.pastSymbol? symbol).isSome) :
    ∃ next, c.symbol? = some (symbol, next) := by
  rw [Cursor.pastSymbol?] at h
  split at h
  · split at h
    · rename_i text next hs ht
      exact ⟨next, ht ▸ hs⟩
    · cases h
  · cases h

theorem Cursor.pastSymbol?_eq_some {symbol : String} {c d : Cursor} :
    c.pastSymbol? symbol = some d ↔ c.symbol? = some (symbol, d) := by
  unfold pastSymbol?
  cases c.symbol? with
  | none => simp
  | some r => simp [Prod.ext_iff]

theorem pastSymbol?_of_ne {c : Cursor} {symbol : String}
    (h : ∀ cs, nextSymbol? c.rest ≠ some (symbol, cs)) : c.pastSymbol? symbol = none := by
  rw [Cursor.pastSymbol?]
  cases hs : c.symbol? with
  | none => rfl
  | some r =>
      have hnext := symbol?_eq c
      rw [hs] at hnext
      have hne : r.1 ≠ symbol := fun heq => h r.2.rest (heq ▸ hnext.symm)
      simp [hne]

theorem mem_symbols_of_symbolAt? {cs rest : List Char} {symbol : String}
    (h : symbolAt? cs = some (symbol, rest)) :
    symbol ∈ symbols ∧ afterStart symbol.toList cs = some rest := by
  obtain ⟨⟨text, s⟩, hmem, hs⟩ := List.exists_of_findSome?_eq_some h
  obtain ⟨r, hr, heq⟩ := Option.map_eq_some_iff.mp hs
  cases heq
  obtain ⟨s', hs', heq⟩ := List.mem_map.mp hmem
  cases heq
  exact ⟨hs', hr⟩

theorem mem_symbols_of_symbol? {c d : Cursor} {symbol : String}
    (h : c.symbol? = some (symbol, d)) :
    symbol ∈ symbols ∧ c.skip.rest = symbol.toList ++ d.rest := by
  have hnext : nextSymbol? c.rest = some (symbol, d.rest) := by rw [← symbol?_eq, h]; rfl
  rw [nextSymbol?, ← rest_skip] at hnext
  obtain ⟨hmem, hstart⟩ := mem_symbols_of_symbolAt? hnext
  exact ⟨hmem, eq_append_of_afterStart hstart⟩

/-- A symbol begins with the first character of the text. -/
theorem head_symbolAt? {first : Char} {cs rest : List Char} {symbol : String}
    (h : symbolAt? (first :: cs) = some (symbol, rest)) : symbol.toList.head? = some first := by
  obtain ⟨hmem, hrest⟩ := mem_symbols_of_symbolAt? h
  have happend := eq_append_of_afterStart hrest
  have hne : ∀ s ∈ symbols, s.toList ≠ [] := by decide
  cases hlist : symbol.toList with
  | nil => exact absurd hlist (hne symbol hmem)
  | cons d ds =>
      rw [hlist] at happend
      rw [List.head?_cons, (List.cons.inj happend).1]

theorem head_nextSymbol? {c : Cursor} {first : Char} {cs rest : List Char} {symbol : String}
    (hc : c.skip.rest = first :: cs) (h : nextSymbol? c.rest = some (symbol, rest)) :
    symbol.toList.head? = some first := by
  rw [nextSymbol?, ← rest_skip, hc] at h
  exact head_symbolAt? h

/-- The characters with which a symbol goes on to a longer one. -/
def continuations (symbol : String) : List Char :=
  symbols.filterMap fun s => (afterStart symbol.toList s.toList).bind List.head?

/-- No symbol stands in front of a longer one that begins with it. -/
theorem symbols_longest_first : symbols.Pairwise fun s t => ¬s.toList <+: t.toList := by
  decide +kernel

theorem findSome?_symbolAt {symbol : String} {table : List String} {d : Char} {cs : List Char}
    (hsymbol : symbol ∈ table) (horder : table.Pairwise fun s t => ¬s.toList <+: t.toList)
    (hd : ∀ s ∈ table, ¬(symbol.toList ++ [d]) <+: s.toList) :
    (table.map fun s => (s.toList, s)).findSome? (fun (text, s) =>
      (afterStart text (symbol.toList ++ d :: cs)).map fun rest => (s, rest)) =
        some (symbol, d :: cs) := by
  induction table with
  | nil => cases hsymbol
  | cons s table ih =>
      rw [List.map_cons, List.findSome?_cons]
      dsimp only
      by_cases hs : s = symbol
      · rw [hs, afterStart_append]
        rfl
      have hmem : symbol ∈ table := (List.mem_cons.mp hsymbol).resolve_left (Ne.symm hs)
      obtain ⟨hfirst, horder⟩ := List.pairwise_cons.mp horder
      have hnone : afterStart s.toList (symbol.toList ++ d :: cs) = none := by
        cases hafter : afterStart s.toList (symbol.toList ++ d :: cs) with
        | none => rfl
        | some rest =>
            have hprefix : s.toList <+: symbol.toList ++ d :: cs :=
              ⟨rest, (eq_append_of_afterStart hafter).symm⟩
            have hlong : symbol.toList ++ [d] <+: symbol.toList ++ d :: cs := ⟨cs, by simp⟩
            rcases List.prefix_or_prefix_of_prefix hprefix hlong with h | h
            · rcases List.prefix_concat_iff.mp h with h | h
              · exact absurd (h ▸ List.prefix_rfl) (hd s List.mem_cons_self)
              · exact absurd h (hfirst symbol hmem)
            · exact absurd h (hd s List.mem_cons_self)
      rw [hnone]
      exact ih hmem horder fun t ht => hd t (List.mem_cons_of_mem _ ht)

/-- A symbol is read as a whole, and as no longer one, if the character behind it does not go on. -/
theorem symbolAt?_append {symbol : String} {d : Char} {cs : List Char} (hsymbol : symbol ∈ symbols)
    (hd : d ∉ continuations symbol) :
    symbolAt? (symbol.toList ++ d :: cs) = some (symbol, d :: cs) := by
  refine findSome?_symbolAt hsymbol symbols_longest_first fun s hs hprefix => hd ?_
  obtain ⟨tail, htail⟩ := hprefix
  refine List.mem_filterMap.mpr ⟨s, hs, ?_⟩
  rw [← htail, List.append_assoc, afterStart_append]
  rfl

theorem blank_notMem_continuations (symbol : String) : ' ' ∉ continuations symbol := by
  intro hmem
  obtain ⟨s, hs, hs'⟩ := List.mem_filterMap.mp hmem
  obtain ⟨rest, hrest, hhead⟩ := Option.bind_eq_some_iff.mp hs'
  have hblank : ' ' ∈ s.toList := by
    rw [eq_append_of_afterStart hrest]
    exact List.mem_append_right _ (List.mem_of_mem_head? hhead)
  have hnone : ∀ s ∈ symbols, ' ' ∉ s.toList := by decide
  exact hnone s hs hblank

/-- A symbol between blanks. -/
theorem nextSymbol?_spaced {symbol : String} (hsymbol : symbol ∈ symbols) {cs : List Char}
    (hskip : skipped (symbol.toList ++ ' ' :: cs) = symbol.toList ++ ' ' :: cs) :
    nextSymbol? (' ' :: symbol.toList ++ ' ' :: cs) = some (symbol, ' ' :: cs) := by
  rw [nextSymbol?, List.cons_append, skipped_separator rfl, hskip]
  exact symbolAt?_append hsymbol (blank_notMem_continuations symbol)

/-! ### Words -/

/-- Letters of ASCII by their code points. -/
theorem isAlpha_iff_toNat {c : Char} : c.isAlpha = true ↔
    65 ≤ c.toNat ∧ c.toNat ≤ 90 ∨ 97 ≤ c.toNat ∧ c.toNat ≤ 122 := by
  delta Char.isAlpha Char.isUpper Char.isLower
  simp [UInt32.le_iff_toNat_le]

/-- The next token of a text, if it is a word, and the text behind it. -/
def nextWord? (cs : List Char) : Option (String × List Char) :=
  match skipped cs with
  | [] => none
  | first :: rest =>
    if isWordStart first then
      some (String.ofList (first :: rest.takeWhile isWordChar), rest.dropWhile isWordChar)
    else none

theorem nextWord?_skip (c : Cursor) : nextWord? c.skip.rest = nextWord? c.rest := by
  rw [nextWord?, nextWord?, ← rest_skip, ← rest_skip, skip_skip]

/-- Where a symbol comes next, no word does. -/
theorem nextWord?_of_symbol {cs rest : List Char} {symbol : String}
    (h : nextSymbol? cs = some (symbol, rest)) : nextWord? cs = none := by
  unfold nextSymbol? at h
  unfold nextWord?
  cases hcs : skipped cs with
  | nil => rfl
  | cons first tail =>
      rw [hcs] at h
      have hnone : ∀ s ∈ symbols, (s.toList.head?.any isWordStart) = false := by decide
      have hfirst := hnone symbol (mem_symbols_of_symbolAt? h).1
      rw [head_symbolAt? h, Option.any_some] at hfirst
      simp [hfirst]

theorem wordHere?_eq_some {isStart : Char → Bool} {c d : Cursor} {text : String} :
    c.wordHere? isStart = some (text, d) ↔ ∃ first rest, c.rest = first :: rest ∧
      isStart first = true ∧ String.ofList (first :: rest.takeWhile isWordChar) = text ∧
      c.advance ((rest.takeWhile isWordChar).length + 1) = d := by
  rw [Cursor.wordHere?]
  cases c.rest with
  | nil => simp
  | cons first rest =>
      simp only [List.cons.injEq]
      constructor
      · intro h
        by_cases hfirst : isStart first = true
        · rw [if_pos hfirst] at h
          cases h
          exact ⟨first, rest, ⟨rfl, rfl⟩, hfirst, rfl, rfl⟩
        · rw [if_neg hfirst] at h
          cases h
      · rintro ⟨_, _, ⟨rfl, rfl⟩, hfirst, rfl, rfl⟩
        exact if_pos hfirst

theorem wordHere?_eq {isStart : Char → Bool} {c : Cursor} {first : Char} {rest : List Char}
    (hc : c.rest = first :: rest) (hfirst : isStart first = true) :
    ∃ d, c.wordHere? isStart = some (String.ofList (first :: rest.takeWhile isWordChar), d) ∧
      d.rest = rest.dropWhile isWordChar := by
  refine ⟨_, wordHere?_eq_some.mpr ⟨first, rest, hc, hfirst, rfl, rfl⟩, ?_⟩
  rw [Cursor.rest_advance, hc, List.drop_succ_cons]
  have hsplit := List.takeWhile_append_dropWhile (p := isWordChar) (l := rest)
  calc rest.drop (rest.takeWhile isWordChar).length
      = (rest.takeWhile isWordChar ++ rest.dropWhile isWordChar).drop
          (rest.takeWhile isWordChar).length := by rw [hsplit]
    _ = rest.dropWhile isWordChar := List.drop_left

theorem word?_eq (c : Cursor) :
    c.word?.map (fun r => (r.1, r.2.rest)) = nextWord? c.rest := by
  rw [Cursor.word?, nextWord?, ← rest_skip]
  cases hrest : c.skip.rest with
  | nil => simp [Cursor.wordHere?, hrest]
  | cons first rest =>
      by_cases hfirst : isWordStart first = true
      · obtain ⟨d, hd, hdrest⟩ := wordHere?_eq hrest hfirst
        simp [hd, hdrest, hfirst]
      · simp [Cursor.wordHere?, hrest, hfirst]

theorem word?_of_some {c : Cursor} {word : String} {cs : List Char}
    (h : nextWord? c.rest = some (word, cs)) : ∃ d, c.word? = some (word, d) ∧ d.rest = cs := by
  rw [← word?_eq, Option.map_eq_some_iff] at h
  obtain ⟨⟨text, d⟩, hd, heq⟩ := h
  cases heq
  exact ⟨d, hd, rfl⟩

theorem word?_of_none {c : Cursor} (h : nextWord? c.rest = none) : c.word? = none := by
  rwa [← word?_eq, Option.map_eq_none_iff] at h

theorem Cursor.pastWord?_eq_some {word : String} {c d : Cursor} :
    c.pastWord? word = some d ↔ c.word? = some (word, d) := by
  unfold pastWord?
  cases c.word? with
  | none => simp
  | some r => simp [Prod.ext_iff]

/-! ### Readers of tokens -/

namespace Reader

variable {α β : Type} {x : PlainReader α} {f : α → PlainReader β} {c d : Cursor} {cs ds : List Char}

/-- A reader succeeds at a place, with a value of a kind and with a text left over. -/
def Takes (x : PlainReader α) (c : Cursor) (left : List Char) (Q : α → Prop) : Prop :=
  ∃ v d, x c = .ok (v, d) ∧ d.rest = left ∧ Q v

theorem Takes.bind {P : α → Prop} {Q : β → Prop} (hx : x.Takes c cs P)
    (hf : ∀ v d, d.rest = cs → P v → (f v).Takes d ds Q) : (x >>= f).Takes c ds Q := by
  obtain ⟨v, d, hv, hd, hP⟩ := hx
  obtain ⟨w, e, hw, he, hQ⟩ := hf v d hd hP
  exact ⟨w, e, (bind_ok hv).trans hw, he, hQ⟩

theorem Takes.step {Q : β → Prop} {v : α} (hx : x c = .ok (v, d)) (hf : (f v).Takes d ds Q) :
    (x >>= f).Takes c ds Q := by
  obtain ⟨w, e, hw, he, hQ⟩ := hf
  exact ⟨w, e, (bind_ok hx).trans hw, he, hQ⟩

theorem Takes.here {f : Nat → PlainReader β} {Q : β → Prop}
    (h : (f c.skip.position.line).Takes c.skip cs Q) : (Reader.here >>= f).Takes c cs Q := h

theorem Takes.get {f : Cursor → PlainReader β} {Q : β → Prop} (h : (f c).Takes c cs Q) :
    ((MonadState.get : PlainReader Cursor) >>= f).Takes c cs Q := h

theorem Takes.modify {f : Unit → PlainReader β} {g : Cursor → Cursor} {Q : β → Prop}
    (h : (f ()).Takes (g c) cs Q) : ((modify g : PlainReader Unit) >>= f).Takes c cs Q := h

theorem Takes.set {f : Unit → PlainReader β} {Q : β → Prop} (h : (f ()).Takes d cs Q) :
    ((MonadStateOf.set d : PlainReader Unit) >>= f).Takes c cs Q := h

theorem Takes.pure {Q : α → Prop} {v : α} (hc : c.rest = cs) (hv : Q v) :
    (Pure.pure v : PlainReader α).Takes c cs Q :=
  ⟨v, c, rfl, hc, hv⟩

theorem Takes.mono {P Q : α → Prop} (hx : x.Takes c cs P) (h : ∀ v, P v → Q v) : x.Takes c cs Q := by
  obtain ⟨v, d, hv, hd, hP⟩ := hx
  exact ⟨v, d, hv, hd, h v hP⟩

theorem acceptSymbol_ok {symbol : String} (h : nextSymbol? c.rest = some (symbol, cs)) :
    ∃ d, (acceptSymbol symbol : PlainReader Bool) c = .ok (true, d) ∧ d.rest = cs := by
  obtain ⟨d, hd, hrest⟩ := pastSymbol?_of_some h
  refine ⟨d, ?_, hrest⟩
  rw [acceptSymbol, get_bind_apply, hd]
  rfl

theorem acceptSymbol_not {symbol : String} (h : ∀ cs, nextSymbol? c.rest ≠ some (symbol, cs)) :
    (acceptSymbol symbol : PlainReader Bool) c = .ok (false, c) := by
  rw [acceptSymbol, get_bind_apply, pastSymbol?_of_ne h]
  rfl

theorem peekSymbol_ok {symbol : String} (h : nextSymbol? c.rest = some (symbol, cs)) :
    (peekSymbol symbol : PlainReader Bool) c = .ok (true, c) := by
  obtain ⟨d, hd, -⟩ := pastSymbol?_of_some h
  rw [peekSymbol, get_bind_apply, hd]
  rfl

theorem peekSymbol_not {symbol : String} (h : ∀ cs, nextSymbol? c.rest ≠ some (symbol, cs)) :
    (peekSymbol symbol : PlainReader Bool) c = .ok (false, c) := by
  rw [peekSymbol, get_bind_apply, pastSymbol?_of_ne h]
  rfl

theorem expectSymbol_ok {symbol : String} (h : nextSymbol? c.rest = some (symbol, cs)) :
    ∃ d, (expectSymbol symbol : PlainReader Unit) c = .ok ((), d) ∧ d.rest = cs := by
  obtain ⟨d, hd, hrest⟩ := acceptSymbol_ok h
  exact ⟨d, by rw [expectSymbol, bind_ok hd]; rfl, hrest⟩

theorem acceptWord_ok {word : String} (h : nextWord? c.rest = some (word, cs)) :
    ∃ d, (acceptWord word : PlainReader Bool) c = .ok (true, d) ∧ d.rest = cs := by
  obtain ⟨d, hd, hrest⟩ := word?_of_some h
  refine ⟨d, ?_, hrest⟩
  rw [acceptWord, get_bind_apply, Cursor.pastWord?, hd]
  simp

theorem acceptWord_not {word : String} (h : ∀ cs, nextWord? c.rest ≠ some (word, cs)) :
    (acceptWord word : PlainReader Bool) c = .ok (false, c) := by
  have hpast : c.pastWord? word = none := by
    rw [Cursor.pastWord?]
    cases hw : c.word? with
    | none => rfl
    | some r =>
        have hnext := word?_eq c
        rw [hw] at hnext
        have hne : r.1 ≠ word := fun heq => h r.2.rest (heq ▸ hnext.symm)
        simp [hne]
  rw [acceptWord, get_bind_apply, hpast]
  rfl

/-- A symbol that is accepted comes next; if none is, the cursor stays. -/
theorem acceptSymbol_inv {symbol : String} {accepted : Bool} {c d : Cursor}
    (h : (acceptSymbol symbol : PlainReader Bool) c = .ok (accepted, d)) :
    accepted = true ∧ c.symbol? = some (symbol, d) ∨
      accepted = false ∧ c.pastSymbol? symbol = none ∧ d = c := by
  rw [acceptSymbol, get_bind_apply] at h
  cases hpast : c.pastSymbol? symbol with
  | none =>
      rw [hpast] at h
      cases h
      exact .inr ⟨rfl, rfl, rfl⟩
  | some next =>
      rw [hpast] at h
      cases h
      exact .inl ⟨rfl, Cursor.pastSymbol?_eq_some.mp hpast⟩

/-- A word that is accepted comes next; if none is, the cursor stays. -/
theorem acceptWord_inv {word : String} {accepted : Bool} {c d : Cursor}
    (h : (acceptWord word : PlainReader Bool) c = .ok (accepted, d)) :
    accepted = true ∧ c.word? = some (word, d) ∨
      accepted = false ∧ c.pastWord? word = none ∧ d = c := by
  rw [acceptWord, get_bind_apply] at h
  cases hpast : c.pastWord? word with
  | none =>
      rw [hpast] at h
      cases h
      exact .inr ⟨rfl, rfl, rfl⟩
  | some next =>
      rw [hpast] at h
      cases h
      exact .inl ⟨rfl, Cursor.pastWord?_eq_some.mp hpast⟩

/-! ### Identifiers -/

theorem identifier_of_none {sigil : Char} (h : c.skip.wordHere? (isIdentifierStart sigil) = none) :
    (identifier sigil : PlainReader String) c = .error ⟨.identifierStart, c.skip⟩ := by
  rw [identifier, get_bind_apply, bind_apply, anyIdentifier, get_bind_apply]
  simp only [h]
  rfl

theorem identifier_of_some {sigil : Char} {next : Cursor} {text : String}
    (h : c.skip.wordHere? (isIdentifierStart sigil) = some (text, next)) :
    (identifier sigil : PlainReader String) c =
      if keywords.contains text then .error ⟨.identifier, c⟩ else .ok (text, next) := by
  have hany : (anyIdentifier sigil : PlainReader String) c = .ok (text, next) := by
    rw [anyIdentifier, get_bind_apply]
    simp only [h]
    rfl
  rw [identifier, get_bind_apply, bind_ok hany]
  split <;> rfl

end Reader

end SnippetRewrite
