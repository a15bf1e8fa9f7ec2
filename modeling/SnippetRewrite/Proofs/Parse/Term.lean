import Mathlib.Data.List.Forall2
import SnippetRewrite.Proofs.Parse.Legible

/-!
Texts of terms. Literals, variables, arrays, new objects and expressions between parentheses are read
back by the reader of primary expressions, and what is written behind a term joins it.
-/

namespace SnippetRewrite

variable {ℓ : Nat} {x more : List Char} {t : Tree} {c : Cursor} {bound depth : Nat} {text : String}

/-! ### First characters -/

theorem nextWord?_of_not_start {d : Char} {cs : List Char} (hd : startsToken d = true)
    (hstart : isWordStart d = false) : nextWord? (d :: cs) = none := by
  simp [nextWord?, skipped_eq_self hd, hstart]

theorem startsToken_of_opensTerm {d : Char} (h : opensTerm d = true) : startsToken d = true := by
  have hnone : ∀ e ∈ [' ', '\t', '\r', '\n', '/', '#'], opensTerm e = false :=
    List.all_iff_forall_prop.mp (by decide)
  exact (startsToken_or d).resolve_right fun hmem => by simp [hnone d hmem] at h

theorem Opens.of_first {d : Char} {cs : List Char} (hd : opensTerm d = true)
    (hstart : isWordStart d = false) : Opens ℓ (d :: cs) where
  first := ⟨d, cs, rfl, .inl hd⟩
  word more _ w rest hw := by
    rw [List.cons_append, nextWord?_of_not_start (startsToken_of_opensTerm hd) hstart] at hw
    cases hw

theorem isWordStart_of_isDigit {d : Char} (h : d.isDigit = true) : isWordStart d = false := by
  have hcode : 48 ≤ d.toNat ∧ d.toNat ≤ 57 := Char.isDigit_iff_toNat.mp h
  have hascii : d.toNat < 0x80 := by omega
  have halpha : d.isAlpha = false := by
    rw [Bool.eq_false_iff, ne_eq, isAlpha_iff_toNat]
    omega
  have hunderscore : d ≠ '_' := by
    rintro rfl
    revert h
    decide
  simp [isWordStart, isAlphabetic_of_isAlpha hascii, halpha, hunderscore]

/-- An identifier that is a word is the next word of the text. -/
theorem nextWord?_identifier {first : Char} {tail : List Char}
    (hfirst : isWordStart first = true) (htail : ∀ d ∈ tail, isWordChar d = true)
    (hmore : Closed more) :
    nextWord? (first :: tail ++ more) = some (String.ofList (first :: tail), more) := by
  have hstart : startsToken first = true := startsToken_of_opensTerm (by simp [opensTerm, hfirst])
  have hskip : skipped (first :: tail ++ more) = first :: (tail ++ more) := skipped_eq_self hstart
  rw [nextWord?, hskip]
  simp [hfirst, takeWhile_append_stop htail hmore.word, dropWhile_append_stop htail hmore.word]

theorem IsIdentifier.word_or (h : IsIdentifier defaultSigil text) :
    (∃ cs, text.toList = '$' :: cs) ∨
      (∃ d cs, text.toList = d :: cs ∧ isWordStart d = true) ∧
      ∀ more, Closed more → nextWord? (text.toList ++ more) = some (text, more) := by
  obtain ⟨first, tail, htext, hfirst, htail⟩ := h
  simp only [isIdentifierStart, Bool.or_eq_true, decide_eq_true_eq] at hfirst
  rcases hfirst with (hfirst | rfl) | rfl
  · refine .inr ⟨⟨first, tail, htext, hfirst⟩, fun more hmore => ?_⟩
    rw [htext, nextWord?_identifier hfirst htail hmore, ← htext, String.ofList_toList]
  · exact .inl ⟨tail, htext⟩
  · exact .inl ⟨tail, htext⟩

theorem Opens.of_identifier (h : IsIdentifier defaultSigil text)
    (hword : text ∈ keywords → text = "new") : Opens ℓ text.toList := by
  rcases h.word_or with ⟨cs, hcs⟩ | ⟨⟨d, cs, hcs, hd⟩, hnext⟩
  · rw [hcs]
    exact .of_first rfl (by decide)
  · refine ⟨⟨d, cs, hcs, .inl (by simp [opensTerm, hd])⟩, fun more hmore w rest hw => ?_⟩
    rw [hnext more hmore] at hw
    cases hw
    exact fun hmem => .inl (hword hmem)

theorem Opens.of_name (h : IsName defaultSigil text) : Opens ℓ text.toList :=
  .of_identifier h.identifier fun hmem => absurd hmem h.notKeyword

/-! ### Expressions inside others -/

/-- Parts inside others are read by a grammar for texts that nest one less deep. -/
theorem Legible.nested {read : TreeGrammar → PlainReader Tree} (hread : ∀ bound depth,
      read (Grammar.ofDepth defaultSigil bound (depth + 1)) =
        (Grammar.ofDepth defaultSigil bound depth).atStrength ℓ)
    (h : Legible ℓ x t) (hc : c.skip.rest = x ++ more) (hends : Ends ℓ more)
    (hdepth : x.length < depth) (hbound : (x ++ more).length < bound) :
    (read (Grammar.ofDepth defaultSigil bound depth)).Takes c more (·.same t = true) := by
  cases depth with
  | zero => cases hdepth
  | succ depth =>
      rw [hread]
      exact h.reads hc hends (Nat.le_of_lt_succ hdepth) hbound

theorem Legible.expression (h : Legible Strength.assignment x t) (hc : c.skip.rest = x ++ more)
    (hends : Ends Strength.assignment more) (hdepth : x.length < depth)
    (hbound : (x ++ more).length < bound) :
    (Grammar.ofDepth defaultSigil bound depth).expression.Takes c more (·.same t = true) :=
  h.nested (fun _ _ => rfl) hc hends hdepth hbound

theorem Legible.conditional (h : Legible Strength.conditional x t) (hc : c.skip.rest = x ++ more)
    (hends : Ends Strength.conditional more) (hdepth : x.length < depth)
    (hbound : (x ++ more).length < bound) :
    (Grammar.ofDepth defaultSigil bound depth).conditional.Takes c more (·.same t = true) :=
  h.nested (fun _ _ => rfl) hc hends hdepth hbound

theorem Legible.operand (h : Legible Strength.unary x t) (hc : c.skip.rest = x ++ more)
    (hends : Ends Strength.unary more) (hdepth : x.length < depth)
    (hbound : (x ++ more).length < bound) :
    (Grammar.ofDepth defaultSigil bound depth).operand.Takes c more (·.same t = true) :=
  h.nested (fun _ _ => rfl) hc hends hdepth hbound

/-- A text that the reader of primary expressions reads. -/
theorem Legible.of_primary (hopens : Opens Strength.postfixed x)
    (h : ∀ ⦃bound depth : Nat⦄ ⦃c : Cursor⦄ ⦃more : List Char⦄, c.skip.rest = x ++ more →
      Closed more → (t.isReference = true → ∀ rest, nextSymbol? more ≠ some ("(", rest)) →
      x.length ≤ depth → (x ++ more).length < bound →
      (Grammar.ofDepth defaultSigil bound depth).primary.Takes c more (·.same t = true)) :
    Legible Strength.postfixed x t := by
  refine .of_joins hopens le_rfl fun bound depth c more hc hends hcall hdepth hbound => ?_
  obtain ⟨left, d, hread, hd, hsame⟩ := h hc hends.closed hcall hdepth hbound
  refine ⟨left, d, bound, hsame, hd, ?_, ?_⟩
  · rw [List.length_append] at hbound
    omega
  · exact (Reader.bind_ok hread).trans (by rw [Grammar.bound_ofDepth]; rfl)

theorem Closed.of_head {d : Char} {cs : List Char} (h : isWordChar d = false ∧ d ≠ '.') :
    Closed (d :: cs) := by
  intro e he
  cases he
  exact h

/-- What ends an expression of any strength. -/
theorem Ends.of_closer {d : Char} {cs : List Char} (h : d ∈ [')', ']', ';', ',']) (hpos : 0 < ℓ) :
    Ends ℓ (d :: cs) := by
  simp only [List.mem_cons, List.not_mem_nil, or_false] at h
  rcases h with rfl | rfl | rfl | rfl
  all_goals exact .of_symbol (.of_head (by decide)) rfl hpos

/-- What a turn of a loop makes of the expression in front of it is read as that. -/
theorem Legible.joined {a : Tree} {y : List Char} (hloop : Grammar.IsLoop ℓ)
    (ha : Legible ℓ x a) (hne : y ≠ []) (hends : ∀ more, Ends (ℓ + 1) (y ++ more))
    (hcall : a.isReference = true → ∀ more rest, nextSymbol? (y ++ more) ≠ some ("(", rest))
    (hturn : ∀ ⦃bound depth fuel : Nat⦄ ⦃c : Cursor⦄ ⦃more : List Char⦄ ⦃left : Tree⦄,
      left.same a = true → c.rest = y ++ more → Ends (ℓ + 1) more →
      (t.isReference = true → ∀ rest, nextSymbol? more ≠ some ("(", rest)) →
      y.length < depth → y.length + more.length < bound →
      ∃ v d, v.same t = true ∧ d.rest = more ∧
        (Grammar.ofDepth defaultSigil bound depth).loop ℓ (fuel + 1) left c =
          (Grammar.ofDepth defaultSigil bound depth).loop ℓ fuel v d) :
    Legible ℓ (x ++ y) t := by
  have hle : ℓ ≤ Strength.postfixed := by
    rcases hloop with ⟨-, hle⟩ | rfl
    · exact hle.trans (by decide)
    · exact le_rfl
  have hclosed : Closed y := by
    have := (hends []).closed
    rwa [List.append_nil] at this
  refine .of_joins (ha.opens.append hclosed hne) hle ?_
  intro bound depth c more hc hmore hreference hdepth hbound
  obtain ⟨_, _, hx, -⟩ := ha.opens.first
  have hxpos : 0 < x.length := by
    rw [hx]
    exact Nat.succ_pos _
  have hypos : 0 < y.length := List.length_pos_iff.mpr hne
  rw [List.append_assoc] at hc hbound
  rw [List.length_append] at hdepth
  have hshort : x.length ≤ depth := by omega
  obtain ⟨left, d, fuel, hsame, hd, hfuel, hread⟩ :=
    ha.joins hloop hc (hends more) (fun href => hcall href more) hshort hbound
  simp only [List.length_append] at hfuel hbound
  obtain ⟨fuel, rfl⟩ : ∃ k, fuel = k + 1 := ⟨fuel - 1, by omega⟩
  obtain ⟨v, e, hv, he, hstep⟩ :=
    hturn hsame hd hmore hreference (Nat.lt_of_lt_of_le (by omega) hdepth)
      (Nat.lt_of_le_of_lt (by omega) hbound)
  exact ⟨v, e, fuel, hv, he, by omega, hread.trans hstep⟩

/-- An expression between parentheses is read wherever an expression may stand. -/
theorem Legible.parens (h : Legible Strength.assignment x t) :
    Legible Strength.postfixed ('(' :: x ++ [')']) t := by
  refine .of_primary (.of_first rfl (by decide)) ?_
  intro bound depth c more hc hmore _ hdepth hbound
  have hrest : c.skip.rest = '(' :: (x ++ ')' :: more) := by simpa using hc
  simp only [List.length_append, List.length_cons, List.length_nil] at hdepth hbound
  refine .here (.get ?_)
  rw [hrest]
  dsimp only
  rw [if_neg (by decide), if_neg (by decide)]
  have hopen : nextSymbol? c.skip.rest = some ("(", x ++ ')' :: more) := by rw [hrest]; rfl
  obtain ⟨d, hd, hdrest⟩ := Reader.acceptSymbol_ok hopen
  refine .step hd ?_
  rw [if_pos rfl]
  refine .bind (h.expression (h.opens.skip hdrest) (.of_closer (by decide) Nat.one_pos) (by omega)
    (by simp only [List.length_append, List.length_cons]; omega)) fun v e he hv => ?_
  have hclose : nextSymbol? e.rest = some (")", more) := by rw [he]; rfl
  obtain ⟨f, hf, hfrest⟩ := Reader.expectSymbol_ok hclose
  exact .step hf (.pure hfrest hv)

/-! ### Lists of expressions -/

section Items

variable {item : PlainReader Tree} {close : String} {fuel : Nat} {sep next : List Char}
  {Q : Tree → Prop}

theorem itemsWithin_end (hclose : nextSymbol? c.rest = some (close, more)) :
    (Grammar.itemsWithin close item (fuel + 1)).Takes c more (· = []) := by
  obtain ⟨d, hd, hdrest⟩ := Reader.acceptSymbol_ok hclose
  exact .step hd (.pure hdrest rfl)

theorem itemsWithin_last (hopen : ∀ rest, nextSymbol? c.rest ≠ some (close, rest))
    (hitem : item.Takes c sep Q) (hclose : nextSymbol? sep = some (close, more))
    (hcomma : close ≠ ",") :
    (Grammar.itemsWithin close item (fuel + 1)).Takes c more fun us => ∃ u, us = [u] ∧ Q u := by
  refine .step (Reader.acceptSymbol_not hopen) ?_
  rw [if_neg Bool.false_ne_true]
  refine hitem.bind fun u d hd hu => ?_
  have hno : ∀ rest, nextSymbol? d.rest ≠ some (",", rest) := nextSymbol?_ne (hd ▸ hclose) hcomma
  obtain ⟨e, he, herest⟩ := Reader.expectSymbol_ok (hd ▸ hclose)
  exact .step (Reader.acceptSymbol_not hno) (.step he (.pure herest ⟨u, rfl, hu⟩))

theorem itemsWithin_more {R : List Tree → Prop}
    (hopen : ∀ rest, nextSymbol? c.rest ≠ some (close, rest))
    (hitem : item.Takes c sep Q) (hcomma : nextSymbol? sep = some (",", next))
    (hrest : ∀ d, d.rest = next → (Grammar.itemsWithin close item fuel).Takes d more R) :
    (Grammar.itemsWithin close item (fuel + 1)).Takes c more
      fun us => ∃ u vs, us = u :: vs ∧ Q u ∧ R vs := by
  refine .step (Reader.acceptSymbol_not hopen) ?_
  rw [if_neg Bool.false_ne_true]
  refine hitem.bind fun u d hd hu => ?_
  obtain ⟨e, he, herest⟩ := Reader.acceptSymbol_ok (hd ▸ hcomma)
  refine .step he ?_
  rw [if_pos rfl]
  exact (hrest e herest).bind fun vs f hf hvs => .pure hf ⟨u, vs, rfl, hu, hvs⟩

end Items

/-- Texts that are read as items of a list, in front of whatever may follow an item. -/
structure ItemText (item : TreeGrammar → PlainReader Tree) (x : List Char) (t : Tree) : Prop where
  first : ∃ d cs, x = d :: cs ∧ d ∉ neverOpening
  takes : ∀ ⦃bound depth : Nat⦄ ⦃c : Cursor⦄ ⦃d : Char⦄ ⦃more : List Char⦄,
    c.skip.rest = x ++ d :: more → d ∈ [')', ']', ';', ','] → x.length < depth →
    (x ++ d :: more).length < bound →
    (item (Grammar.ofDepth defaultSigil bound depth)).Takes c (d :: more) (·.same t = true)

def LegibleItems (xs : List (List Char)) (ts : List Tree) : Prop :=
  List.Forall₂ (Legible Strength.assignment) xs ts

theorem Legible.itemText (h : Legible Strength.assignment x t) :
    ItemText Grammar.expression x t where
  first := h.opens.first_notMem
  takes _ _ _ _ _ hc hd hdepth hbound := h.expression hc (.of_closer hd Nat.one_pos) hdepth hbound

theorem commaSeparated_cons (x : List Char) (xs : List (List Char)) :
    ∃ tail, commaSeparated (x :: xs) = x ++ tail := by
  cases xs with
  | nil => exact ⟨[], by simp [commaSeparated]⟩
  | cons y xs => exact ⟨_, rfl⟩

variable {item : TreeGrammar → PlainReader Tree} {xs : List (List Char)} {ts : List Tree}

theorem ItemText.skip (h : ItemText item x t) (hc : c.rest = x ++ more ∨ c.rest = ' ' :: (x ++ more)) :
    c.skip.rest = x ++ more := by
  obtain ⟨d, cs, rfl, hd⟩ := h.first
  have hself : skipped (d :: cs ++ more) = d :: cs ++ more :=
    skipped_eq_self (startsToken_of_notMem hd)
  rw [rest_skip]
  rcases hc with hc | hc
  · rw [hc, hself]
  · rw [hc, skipped_separator rfl, hself]

theorem skip_commaSeparated {close : Char} (hclose : close = ')' ∨ close = ']')
    (h : List.Forall₂ (ItemText item) xs ts) (hblank : c.rest = commaSeparated xs ++ close :: more ∨
      xs ≠ [] ∧ c.rest = ' ' :: (commaSeparated xs ++ close :: more)) :
    c.skip.rest = commaSeparated xs ++ close :: more := by
  cases h with
  | nil =>
      have hstart : startsToken close = true := by rcases hclose with rfl | rfl <;> rfl
      have hc := hblank.resolve_right fun hne => hne.1 rfl
      rw [skip_eq_self hc hstart, hc]
  | @cons x t xs ts hx _ =>
      obtain ⟨tail, htail⟩ := commaSeparated_cons x xs
      rw [htail, List.append_assoc] at hblank ⊢
      exact hx.skip (hblank.imp_right And.right)

/-- Items separated by commas are read up to a closing symbol. -/
theorem itemsWithin_takes {close : Char} (hclose : close = ')' ∨ close = ']')
    (h : List.Forall₂ (ItemText item) xs ts) {fuel : Nat}
    (hc : c.skip.rest = commaSeparated xs ++ close :: more)
    (hdepth : (commaSeparated xs).length < depth)
    (hbound : (commaSeparated xs ++ close :: more).length < bound)
    (hfuel : (commaSeparated xs ++ close :: more).length ≤ fuel) :
    (Grammar.itemsWithin (String.singleton close)
      (item (Grammar.ofDepth defaultSigil bound depth)) fuel).Takes c more
        fun us => Tree.sameSlots (us.map some) (ts.map some) = true := by
  have hnext (cs : List Char) : nextSymbol? (close :: cs) = some (String.singleton close, cs) := by
    rcases hclose with rfl | rfl <;> rfl
  have hends : close ∈ [')', ']', ';', ','] := by rcases hclose with rfl | rfl <;> decide
  have hnever : close ∈ neverOpening := by rcases hclose with rfl | rfl <;> decide
  have hcomma : String.singleton close ≠ "," := by rcases hclose with rfl | rfl <;> decide
  induction h generalizing fuel c with
  | nil =>
      obtain ⟨fuel, rfl⟩ : ∃ k, fuel = k + 1 := ⟨fuel - 1, by simp at hfuel; omega⟩
      have hhere : nextSymbol? c.rest = some (String.singleton close, more) := by
        rw [← nextSymbol?_skip, hc]
        exact hnext more
      exact (itemsWithin_end hhere).mono fun us hus => by rw [hus]; rfl
  | @cons x t xs ts hx hxs ih =>
      obtain ⟨tail, htail⟩ := commaSeparated_cons x xs
      have hfirst : c.skip.rest = x ++ (tail ++ close :: more) := by
        rw [hc, htail, List.append_assoc]
      have hopen : ∀ rest, nextSymbol? c.rest ≠ some (String.singleton close, rest) := by
        intro rest hs
        obtain ⟨d, cs, rfl, hd⟩ := hx.first
        have hhead : (String.singleton close).toList.head? = some d := head_nextSymbol? hfirst hs
        rw [String.toList_singleton, List.head?_cons, Option.some.injEq] at hhead
        exact hd (hhead ▸ hnever)
      obtain ⟨fuel, rfl⟩ : ∃ k, fuel = k + 1 := ⟨fuel - 1, by simp at hfuel; omega⟩
      cases xs with
      | nil =>
          cases hxs
          rw [commaSeparated, List.intercalate_singleton] at hc hdepth hbound
          have hitem := hx.takes hc hends hdepth hbound
          refine (itemsWithin_last hopen hitem (hnext more) hcomma).mono ?_
          rintro _ ⟨u, rfl, hu⟩
          simp [Tree.sameSlots, hu]
      | cons y xs =>
          have happend : commaSeparated (x :: y :: xs) ++ close :: more =
              x ++ ',' :: ' ' :: (commaSeparated (y :: xs) ++ close :: more) := by
            simp [commaSeparated]
          have hlen : (commaSeparated (x :: y :: xs)).length =
              x.length + (commaSeparated (y :: xs)).length + 2 := by
            simp [commaSeparated]
            omega
          have hshort : x.length < depth := by omega
          have hitem := hx.takes (hc.trans happend) (by decide) hshort (happend ▸ hbound)
          simp only [List.length_append, List.length_cons] at hbound hfuel
          have hroom : (commaSeparated (y :: xs) ++ close :: more).length < fuel ∧
              (commaSeparated (y :: xs) ++ close :: more).length < bound := by
            simp only [List.length_append, List.length_cons]
            omega
          refine (itemsWithin_more hopen hitem rfl fun d hd =>
            ih (skip_commaSeparated hclose hxs (.inr ⟨List.cons_ne_nil _ _, hd⟩)) (by omega)
              hroom.2 (Nat.le_of_lt hroom.1)).mono ?_
          rintro _ ⟨v, vs, rfl, hv, hvs⟩
          simpa [Tree.sameSlots, hv] using hvs

/-- The items of a list, behind the symbol that opens it. -/
theorem items_takes {close : Char} (hclose : close = ')' ∨ close = ']')
    (h : List.Forall₂ (ItemText item) xs ts) (hc : c.rest = commaSeparated xs ++ close :: more)
    (hdepth : (commaSeparated xs).length < depth)
    (hbound : (commaSeparated xs).length + more.length + 1 < bound) :
    ((Grammar.ofDepth defaultSigil bound depth).items (String.singleton close)
      (item (Grammar.ofDepth defaultSigil bound depth))).Takes c more
        fun us => Tree.sameSlots (us.map some) (ts.map some) = true := by
  have hroom : (commaSeparated xs ++ close :: more).length < bound := by
    simp only [List.length_append, List.length_cons]
    omega
  rw [Grammar.items, Grammar.bound_ofDepth]
  exact itemsWithin_takes hclose h (skip_commaSeparated hclose h (.inl hc)) hdepth hroom
    (Nat.le_of_lt hroom)

theorem LegibleItems.itemTexts (h : LegibleItems xs ts) :
    List.Forall₂ (ItemText Grammar.expression) xs ts :=
  h.imp fun _ _ hx => hx.itemText

theorem arguments_takes (h : LegibleItems xs ts) (hc : c.rest = commaSeparated xs ++ ')' :: more)
    (hdepth : (commaSeparated xs).length < depth)
    (hbound : (commaSeparated xs).length + more.length + 1 < bound) (line argumentLine : Nat) :
    ((Grammar.ofDepth defaultSigil bound depth).arguments line).Takes c more
      (·.same (.list .argList ts argumentLine) = true) :=
  (items_takes (.inl rfl) h.itemTexts hc hdepth hbound).bind fun us d hd hus => .pure hd (by simpa using hus)

/-! ### Literals -/

theorem worded_literal {g : TreeGrammar} {line : Nat} {word : String} {value : Value}
    (hw : nextWord? c.rest = some (word, more)) (hl : literalWord? word = some value) :
    (g.worded line).Takes c more (· = .literal value line) := by
  obtain ⟨d, hd, hdrest⟩ := word?_of_some hw
  refine .get ?_
  rw [hd]
  dsimp only
  rw [hl]
  exact .set (.pure hdrest rfl)

/-- An expression that begins with a letter, an underscore or a dollar sign begins with a word. -/
theorem primary_of_worded {g : TreeGrammar} {d : Char} {cs : List Char} {Q : Tree → Prop}
    (hc : c.skip.rest = d :: cs) (hd : isWordStart d = true ∨ d = '$')
    (h : (g.worded c.skip.position.line).Takes c.skip more Q) : g.primary.Takes c more Q := by
  have hdigit : d.isDigit = false := by
    rcases hd with hd | rfl
    · cases hdigit : d.isDigit with
      | false => rfl
      | true => simp [isWordStart_of_isDigit hdigit] at hd
    · rfl
  have hne {e : Char} (he : isWordStart e = false ∧ e ≠ '$') : d ≠ e := by
    rintro rfl
    exact hd.elim (fun hd => by simp [he.1] at hd) he.2
  have hno {symbol : String} {e : Char} (hhead : symbol.toList.head? = some e)
      (he : isWordStart e = false ∧ e ≠ '$') :
      ∀ rest, nextSymbol? c.skip.rest ≠ some (symbol, rest) := by
    intro rest hs
    have hfirst := head_nextSymbol? ((congrArg Cursor.rest (skip_skip c)).trans hc) hs
    exact hne he (Option.some.inj (hfirst.symm.trans hhead))
  refine .here (.get ?_)
  rw [hc]
  dsimp only
  rw [hdigit, if_neg Bool.false_ne_true,
    if_neg (not_or.mpr ⟨hne (by decide), hne (by decide)⟩)]
  refine .step (Reader.acceptSymbol_not (hno rfl (by decide))) ?_
  rw [if_neg Bool.false_ne_true]
  refine .step (Reader.acceptSymbol_not (hno rfl (by decide))) ?_
  rw [if_neg Bool.false_ne_true]
  exact h

theorem Legible.wordLiteral {word : String} {value : Value} {first : Char} {tail : List Char}
    {line : Nat} (hword : word.toList = first :: tail) (hfirst : isWordStart first = true)
    (htail : ∀ d ∈ tail, isWordChar d = true) (hkeyword : word ∉ keywords)
    (hl : literalWord? word = some value) (hplain : value.IsPlain) :
    Legible Strength.postfixed word.toList (.literal value line) := by
  have hid : IsIdentifier defaultSigil word :=
    ⟨first, tail, hword, by simp [isIdentifierStart, hfirst], htail⟩
  refine .of_primary (.of_identifier hid fun hmem => absurd hmem hkeyword) ?_
  intro bound depth c more hc hmore _ _ _
  have hnext : nextWord? c.skip.rest = some (word, more) := by
    rw [hc, hword, nextWord?_identifier hfirst htail hmore, ← hword, String.ofList_toList]
  rw [hword] at hc
  exact primary_of_worded hc (.inl hfirst) ((worded_literal hnext hl).mono fun v hv => by
    rw [hv]
    exact Tree.same_literal hplain _ _)

theorem Legible.natural {n line : Nat} (h : (Value.int n).IsPlain) :
    Legible Strength.postfixed (toString n).toList (.literal (.int n) line) := by
  have hn : n ≤ maxInteger := by
    have hlt : n < 2 ^ 63 := by exact_mod_cast h.2
    exact Nat.le_pred_of_lt hlt
  obtain ⟨d, ds, htext, hd⟩ : ∃ d ds, (toString n).toList = d :: ds ∧ d.isDigit = true := by
    rw [Nat.toString_eq_repr, Nat.toList_repr]
    cases hdigits : Nat.toDigits 10 n with
    | nil => exact absurd hdigits Nat.toDigits_ne_nil
    | cons d ds =>
        have hmem : d ∈ Nat.toDigits 10 n := hdigits ▸ List.mem_cons_self
        exact ⟨d, ds, rfl, Nat.isDigit_of_mem_toDigits (by decide) (by decide) hmem⟩
  have hopens : Opens Strength.postfixed (toString n).toList := by
    rw [htext]
    exact .of_first (by simp [opensTerm, hd]) (isWordStart_of_isDigit hd)
  refine .of_primary hopens ?_
  intro bound depth c more hc hmore _ _ _
  have hread : Reader.number.Takes c.skip more (· = .int n) :=
    Reader.number_takes hn (by rw [skip_skip, hc]) hmore
  have hfirst : c.skip.rest = d :: (ds ++ more) := by rw [hc, htext]; rfl
  refine .here (.get ?_)
  rw [hfirst]
  dsimp only
  rw [if_pos hd]
  refine hread.bind fun v e he hv => .pure he ?_
  rw [hv]
  exact Tree.same_literal h _ _

theorem Legible.string {text : String} {line : Nat} :
    Legible Strength.postfixed (Value.quoted text).toList (.literal (.str text) line) := by
  have htext : (Value.quoted text).toList = '"' :: (text.toList.flatMap Value.escaped ++ ['"']) := by
    simp [Value.quoted]
  refine .of_primary (by rw [htext]; exact .of_first rfl (by decide)) ?_
  intro bound depth c more hc _ _ _ _
  have hread : (Reader.string '"').Takes c.skip more (· = .str text) :=
    Reader.string_takes (by rw [skip_skip, hc])
  have hfirst : c.skip.rest = '"' :: (text.toList.flatMap Value.escaped ++ '"' :: more) := by
    rw [hc, htext]
    simp
  refine .here (.get ?_)
  rw [hfirst]
  dsimp only
  rw [if_neg (by decide), if_pos (.inl rfl)]
  refine hread.bind fun v e he hv => .pure he ?_
  rw [hv]
  exact Tree.same_literal (show (Value.str text).IsPlain from trivial) _ _

/-- Literals are read back from their texts. -/
theorem Legible.literal {value : Value} {line : Nat} (h : value.IsPlain) :
    Legible Strength.postfixed value.text.toList (.literal value line) := by
  cases value with
  | null => exact .wordLiteral rfl (by decide) (List.all_iff_forall_prop.mp (by decide)) (by decide) rfl h
  | bool b =>
      cases b
      · exact .wordLiteral rfl (by decide) (List.all_iff_forall_prop.mp (by decide)) (by decide) rfl h
      · exact .wordLiteral rfl (by decide) (List.all_iff_forall_prop.mp (by decide)) (by decide) rfl h
  | int n =>
      obtain ⟨n, rfl⟩ := Int.eq_ofNat_of_zero_le h.1
      exact .natural h
  | str s => exact .string
  | float | array => exact h.elim

end SnippetRewrite
