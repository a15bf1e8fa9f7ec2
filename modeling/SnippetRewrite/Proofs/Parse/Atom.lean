import Mathlib.Tactic.ByContra
import SnippetRewrite.Proofs.Parse.Parts
import SnippetRewrite.Proofs.Parse.Token

/-!
Numbers, strings and names are read back from their texts. A number or a name ends where no
character that could continue it follows.
-/

namespace SnippetRewrite

/-! ### Where words and numbers end -/

/-- Texts in front of which a word or a number ends. -/
def Closed (cs : List Char) : Prop :=
  ∀ c ∈ cs.head?, isWordChar c = false ∧ c ≠ '.'

theorem isWordChar_of_isDigit {c : Char} (h : c.isDigit = true) : isWordChar c = true := by
  have hcode : 48 ≤ c.toNat ∧ c.toNat ≤ 57 := Char.isDigit_iff_toNat.mp h
  have hascii : c.toNat < 0x80 := by omega
  simp [isWordChar, isAlphanumeric, isNumeric_of_isDigit hascii, h]

variable {xs cs more : List Char} {p : Char → Bool}

theorem takeWhile_append_stop (h : ∀ c ∈ xs, p c = true) (hmore : ∀ c ∈ more.head?, p c = false) :
    (xs ++ more).takeWhile p = xs := by
  rw [List.takeWhile_append_of_pos h]
  cases more with
  | nil => simp
  | cons c more => simp [hmore c rfl]

theorem dropWhile_append_stop (h : ∀ c ∈ xs, p c = true) (hmore : ∀ c ∈ more.head?, p c = false) :
    (xs ++ more).dropWhile p = more := by
  rw [List.dropWhile_append_of_pos h]
  cases more with
  | nil => simp
  | cons c more => simp [hmore c rfl]

theorem Closed.word (h : Closed more) : ∀ c ∈ more.head?, isWordChar c = false :=
  fun c hc => (h c hc).1

theorem Closed.digit (h : Closed more) : ∀ c ∈ more.head?, c.isDigit = false := by
  intro c hc
  have hword := (h c hc).1
  cases hdigit : c.isDigit with
  | false => rfl
  | true => rw [isWordChar_of_isDigit hdigit] at hword; cases hword

/-! ### Numbers -/

theorem hexDigits?_digits (hxs : ∀ c ∈ xs, c.isDigit = true) (hmore : Closed more) :
    hexDigits? (xs ++ more) = none := by
  have hx {x : Char} (h : x.isDigit = true ∨ isWordChar x = false) : ¬(x = 'x' ∨ x = 'X') := by
    rintro (rfl | rfl) <;> revert h <;> decide
  unfold hexDigits?
  split
  · rename_i x rest hcs
    refine if_neg (hx ?_)
    match xs, hxs, hcs with
    | [], _, hcs =>
        have hword := (hmore '0' (by rw [← List.nil_append more, hcs]; rfl)).1
        exact absurd hword (by decide)
    | [_], _, hcs =>
        have hnext : more = x :: rest := (List.cons.inj hcs).2
        exact .inr (hmore.word x (hnext ▸ rfl))
    | _ :: b :: _, hxs, hcs =>
        have hxb : b = x := (List.cons.inj (List.cons.inj hcs).2).1
        exact .inl (hxb ▸ hxs b (by simp))
  · rfl

theorem fractionDigits_closed (h : Closed more) : fractionDigits more = [] := by
  unfold fractionDigits
  split
  · exact absurd rfl (h '.' rfl).2
  · rfl

theorem exponentDigits_closed (h : Closed more) : exponentDigits more = [] := by
  cases more with
  | nil => rfl
  | cons e rest =>
      have hword := (h e rfl).1
      have hne : ¬(e = 'e' ∨ e = 'E') := by
        rintro (rfl | rfl) <;> revert hword <;> decide
      simp [exponentDigits, hne]

theorem scan_digits (hxs : ∀ c ∈ xs, c.isDigit = true) (hmore : Closed more) :
    DecimalLiteral.scan (xs ++ more) = ⟨xs, [], []⟩ := by
  have htake : (xs ++ more).takeWhile Char.isDigit = xs := takeWhile_append_stop hxs hmore.digit
  simp [DecimalLiteral.scan, htake, fractionDigits_closed hmore, exponentDigits_closed hmore]

namespace Reader

variable {c : Cursor}

theorem number_digits (hxs : ∀ d ∈ xs, d.isDigit = true) (hn : Double.digitsValue xs ≤ maxInteger)
    (hc : c.skip.rest = xs ++ more) (hmore : Closed more) :
    number.Takes c more (· = .int (Double.digitsValue xs)) := by
  have hread : (number : PlainReader Value) c =
      .ok (.int (Double.digitsValue xs), c.skip.advance xs.length) := by
    rw [number, get_bind_apply]
    simp only [hc, hexDigits?_digits hxs hmore, scan_digits hxs hmore]
    simp [DecimalLiteral.value, DecimalLiteral.length, hn]
  refine ⟨_, _, hread, ?_, rfl⟩
  rw [Cursor.rest_advance, hc, List.drop_left]

theorem number_takes {n : Nat} (hn : n ≤ maxInteger)
    (hc : c.skip.rest = (toString n).toList ++ more) (hmore : Closed more) :
    number.Takes c more (· = .int n) := by
  have hdigits : ∀ d ∈ (toString n).toList, d.isDigit = true := by
    intro d hd
    rw [Nat.toString_eq_repr, Nat.toList_repr] at hd
    exact Nat.isDigit_of_mem_toDigits (by decide) (by decide) hd
  have hvalue : Double.digitsValue (toString n).toList = n := by
    rw [Nat.toString_eq_repr, Nat.toList_repr]
    exact Nat.ofDigitChars_toDigits (by decide) (by decide)
  have hread := number_digits hdigits (hvalue.symm ▸ hn) hc hmore
  rwa [hvalue] at hread

end Reader

/-! ### Strings -/

theorem escaped_or (ch : Char) :
    (∃ d, Value.escaped ch = ['\\', d] ∧ unescaped '"' d = [ch]) ∨
      Value.escaped ch = [ch] ∧ ch ≠ '"' ∧ ch ≠ '\\' := by
  unfold Value.escaped
  split
  · exact .inl ⟨_, rfl, rfl⟩
  · exact .inl ⟨_, rfl, rfl⟩
  · exact .inl ⟨_, rfl, rfl⟩
  · exact .inl ⟨_, rfl, rfl⟩
  · exact .inl ⟨_, rfl, rfl⟩
  · exact .inl ⟨_, rfl, rfl⟩
  · rename_i hquote hslash _ _ _ _
    exact .inr ⟨rfl, hquote, hslash⟩

/-- What was escaped is read as it was, up to the closing quote. -/
theorem readQuoted_escaped (text done : List Char) (p : Position) (more : List Char) :
    ∃ q, readQuoted '"' done p (text.flatMap Value.escaped ++ '"' :: more) =
      some (done.reverse ++ text, ⟨more, q⟩) := by
  induction text generalizing done p with
  | nil => cases more <;> simp [readQuoted]
  | cons ch text ih =>
      rw [List.flatMap_cons, List.append_assoc]
      rcases escaped_or ch with ⟨d, hesc, hback⟩ | ⟨hesc, hquote, hslash⟩
      · obtain ⟨q, hq⟩ := ih (ch :: done) ((p.past '\\').past d)
        refine ⟨q, ?_⟩
        rw [hesc]
        simp [readQuoted, hback, hq]
      · obtain ⟨q, hq⟩ := ih (ch :: done) (p.past ch)
        refine ⟨q, ?_⟩
        rw [hesc]
        cases hrest : text.flatMap Value.escaped ++ '"' :: more with
        | nil => simp at hrest
        | cons d rest =>
            rw [hrest] at hq
            simp [readQuoted, hquote, hslash, hq]

theorem Reader.string_takes {c : Cursor} {text : String}
    (hc : c.skip.rest = (Value.quoted text).toList ++ more) :
    (Reader.string '"').Takes c more (· = .str text) := by
  have hrest : c.skip.rest = '"' :: (text.toList.flatMap Value.escaped ++ '"' :: more) := by
    simpa [Value.quoted] using hc
  obtain ⟨q, hq⟩ := readQuoted_escaped text.toList [] (c.skip.advance 1).position more
  refine ⟨.str text, ⟨more, q⟩, ?_, rfl, rfl⟩
  rw [Reader.string, get_bind_apply, hrest, List.drop_succ_cons, List.drop_zero, hq]
  simp

/-! ### Names -/

theorem startsToken_or (ch : Char) :
    startsToken ch = true ∨ ch ∈ [' ', '\t', '\r', '\n', '/', '#'] := by
  cases hs : startsToken ch with
  | true => exact .inl rfl
  | false =>
      refine .inr ?_
      by_contra hmem
      simp only [List.mem_cons, List.not_mem_nil, or_false, not_or] at hmem
      simp [startsToken, isSeparator, hmem] at hs

theorem startsToken_of_isIdentifierStart {ch : Char}
    (h : isIdentifierStart defaultSigil ch = true) : startsToken ch = true := by
  have hnone : ∀ d ∈ [' ', '\t', '\r', '\n', '/', '#'],
      isIdentifierStart defaultSigil d = false := List.all_iff_forall_prop.mp (by decide)
  exact (startsToken_or ch).resolve_right fun hmem => by simp [hnone ch hmem] at h

/-- A text with the form of an identifier in its first character and the others. -/
theorem IsIdentifier.append {sigil : Char} {text : String} (h : IsIdentifier sigil text)
    (hmore : Closed more) : ∃ first tail, text.toList ++ more = first :: (tail ++ more) ∧
      isIdentifierStart sigil first = true ∧ text = String.ofList (first :: tail) ∧
      (tail ++ more).takeWhile isWordChar = tail ∧ (tail ++ more).dropWhile isWordChar = more := by
  obtain ⟨first, tail, htext, hfirst, htail⟩ := h
  refine ⟨first, tail, by rw [htext]; rfl, hfirst, ?_, takeWhile_append_stop htail hmore.word,
    dropWhile_append_stop htail hmore.word⟩
  rw [← htext, String.ofList_toList]

namespace Reader

variable {c : Cursor}

theorem identifier_takes {sigil : Char} {text : String} (h : IsName sigil text)
    (hc : c.skip.rest = text.toList ++ more) (hmore : Closed more) :
    (identifier sigil).Takes c more (· = text) := by
  obtain ⟨first, tail, happend, hfirst, htext, htake, hdrop⟩ := h.identifier.append hmore
  obtain ⟨d, hd, hrest⟩ := wordHere?_eq (hc.trans happend) hfirst
  have hany : (anyIdentifier sigil : PlainReader String) c = .ok (text, d) := by
    rw [anyIdentifier, get_bind_apply]
    simp only [hd, htake, ← htext]
    rfl
  refine ⟨text, d, ?_, hrest.trans hdrop, rfl⟩
  rw [identifier, get_bind_apply, bind_ok hany]
  simp [h.notKeyword]

theorem nameLeaf_takes {g : TreeGrammar} {text : String} (hsigil : g.sigil = defaultSigil)
    (h : IsName defaultSigil text) (hc : c.skip.rest = text.toList ++ more) (hmore : Closed more) :
    g.nameLeaf.Takes c more fun t => ∃ line, t = .name text line := by
  obtain ⟨first, tail, happend, hfirst, -⟩ := h.identifier.append hmore
  have hskip : c.skip.skip = c.skip :=
    skip_eq_self (hc.trans happend) (startsToken_of_isIdentifierStart hfirst)
  have hread : (identifier defaultSigil).Takes c.skip more (· = text) :=
    identifier_takes h (hskip.symm ▸ hc) hmore
  rw [Grammar.nameLeaf, Grammar.identifier, hsigil]
  refine Takes.here (hread.bind fun name d hd hname => ?_)
  exact .pure hd ⟨_, by rw [hname]⟩

end Reader

end SnippetRewrite
