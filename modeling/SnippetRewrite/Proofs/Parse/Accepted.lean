import SnippetRewrite.Proofs.Parse.Beginning
import SnippetRewrite.Proofs.Parse.Brackets

/-!
What the reader of programs accepts. Each reader of the grammar hands back the part of programs that it
is for, and takes up a text in which so many more brackets of code are opened than closed, if the
readers of nested parts do; the grammars of all depths follow by induction. Main statements: a program
that is accepted is a block of statements, and its text ends outside strings with its brackets
balanced. That a slash is an operator, and begins no comment, follows from the operand that is read
behind it.
-/

namespace SnippetRewrite

/-! ### Literals -/

namespace Double

theorem isUnsigned_ofRatio (num den : Nat) : (ofRatio false num den).IsUnsigned := by
  simp only [ofRatio]
  split
  · rfl
  · split <;> split <;> rfl

theorem isUnsigned_ofDecimal (digits : Nat) (power : Int) :
    (ofDecimal false digits power).IsUnsigned := by
  simp only [ofDecimal]
  split
  · rfl
  · split
    · rfl
    · exact isUnsigned_ofRatio _ _

end Double

theorem DecimalLiteral.isLiteral_value (l : DecimalLiteral) : l.value.IsLiteral := by
  simp only [value]
  split
  · rename_i h
    simp only [Bool.and_eq_true, decide_eq_true_eq] at h
    exact ⟨Int.natCast_nonneg _, by exact_mod_cast h.2⟩
  · exact Double.isUnsigned_ofDecimal _ _

theorem isLiteral_of_literalWord? {word : String} {value : Value}
    (h : literalWord? word = some value) : value.IsLiteral := by
  simp only [literalWord?] at h
  split at h <;> cases h <;> trivial

/-! ### Steps of readers -/

namespace Reader

variable {α β : Type} {sigil : Char} {k l : Int} {c d : Cursor} {x : PlainReader α}
  {f : α → PlainReader β} {v : α} {P : α → Cursor → Prop} {Q : β → Cursor → Prop}
  {symbol word : String}

/-- What a reader takes up at one place, if it succeeds, is as it should be, and opens so many more
brackets than it closes, unless the sigil begins other tokens than identifiers. -/
def Parses (sigil : Char) (k : Int) (c : Cursor) (x : PlainReader α) (P : α → Cursor → Prop) : Prop :=
  YieldsFrom c x fun v d => P v d ∧ (isValidSigil sigil = true → Leads .code k c.rest d.rest)

theorem Parses.mono {P' : α → Cursor → Prop} (hx : Parses sigil k c x P)
    (h : ∀ v d, P v d → P' v d) : Parses sigil k c x P' :=
  fun v d hv => ⟨h v d (hx v d hv).1, (hx v d hv).2⟩

/-- It may be assumed that the reader succeeds. -/
theorem Parses.of_ok (h : ∀ r, x c = .ok r → Parses sigil k c x P) : Parses sigil k c x P :=
  fun v d hv => h (v, d) hv v d hv

theorem Parses.bind (hx : Parses sigil k c x P) (hf : ∀ v d, P v d → Parses sigil l d (f v) Q) :
    Parses sigil (k + l) c (x >>= f) Q := by
  refine YieldsFrom.bind hx fun v d ⟨hv, hd⟩ w e hw => ?_
  obtain ⟨hQ, he⟩ := hf v d hv w e hw
  exact ⟨hQ, fun hsigil => (hd hsigil).trans (he hsigil)⟩

/-- A part that leaves brackets as they are, in front of another. -/
theorem Parses.andThen (hx : Parses sigil 0 c x P) (hf : ∀ v d, P v d → Parses sigil k d (f v) Q) :
    Parses sigil k c (x >>= f) Q := by
  rw [← Int.zero_add k]
  exact hx.bind hf

/-- A part in front of others that leave brackets as they are. -/
theorem Parses.finish (hx : Parses sigil k c x P) (hf : ∀ v d, P v d → Parses sigil 0 d (f v) Q) :
    Parses sigil k c (x >>= f) Q := by
  rw [← Int.add_zero k]
  exact hx.bind hf

theorem Parses.pure (h : P v c) : Parses sigil 0 c (Pure.pure v) P := by
  rintro _ _ ⟨⟩
  exact ⟨h, fun _ => .refl c.rest⟩

theorem Parses.pure_bind (h : Parses sigil k c (f v) Q) :
    Parses sigil k c ((Pure.pure v : PlainReader α) >>= f) Q := h

theorem Parses.some (hx : Parses sigil k c x P) :
    Parses sigil k c (Option.some <$> x) fun o d => ∀ v ∈ o, P v d := by
  rw [← bind_pure_comp]
  exact hx.finish fun v d hv => .pure (by simpa using hv)

theorem Parses.failAt (cause : SyntaxCause) (place : Cursor) :
    Parses sigil k c (Reader.failAt cause place) P :=
  fun _ _ h => nomatch h

theorem Parses.fail (cause : SyntaxCause) : Parses sigil k c (Reader.fail cause) P :=
  fun _ _ h => nomatch h

theorem Parses.fail_bind (cause : SyntaxCause) :
    Parses sigil k c ((Reader.fail cause : PlainReader α) >>= f) Q :=
  fun _ _ h => nomatch h

theorem Parses.cond {y : PlainReader α} {p : Prop} [Decidable p] (hx : p → Parses sigil k c x P)
    (hy : ¬p → Parses sigil k c y P) : Parses sigil k c (if p then x else y) P := by
  split
  · exact hx ‹_›
  · exact hy ‹_›

theorem Parses.get {f : Cursor → PlainReader β} (h : Parses sigil k c (f c) Q) :
    Parses sigil k c ((MonadState.get : PlainReader Cursor) >>= f) Q := h

/-- A token that has been looked at is taken up. -/
theorem Parses.set {f : Unit → PlainReader β} (l : Int)
    (hd : isValidSigil sigil = true → Leads .code l c.rest d.rest) {n : Int}
    (h : Parses sigil n d (f ()) Q) (hk : l + n = k) :
    Parses sigil k c ((MonadStateOf.set d : PlainReader Unit) >>= f) Q := by
  intro w e hw
  obtain ⟨hQ, he⟩ := h w e hw
  exact ⟨hQ, fun hsigil => hk ▸ (hd hsigil).trans (he hsigil)⟩

theorem Parses.setPlain {f : Unit → PlainReader β} (hd : Leads .code 0 c.rest d.rest)
    (h : Parses sigil k d (f ()) Q) :
    Parses sigil k c ((MonadStateOf.set d : PlainReader Unit) >>= f) Q :=
  .set 0 (fun _ => hd) h (Int.zero_add k)

theorem Parses.skip {f : Unit → PlainReader β} (h : Parses sigil k c.skip (f ()) Q) :
    Parses sigil k c ((modify Cursor.skip : PlainReader Unit) >>= f) Q :=
  .setPlain (leads_skip c) h

theorem Parses.here {f : Nat → PlainReader β}
    (h : Parses sigil k c.skip (f c.skip.position.line) Q) :
    Parses sigil k c (Reader.here >>= f) Q :=
  .setPlain (f := fun _ => f c.skip.position.line) (leads_skip c) h

theorem Parses.peek {f : Bool → PlainReader β} (h : ∀ b, Parses sigil k c (f b) Q) :
    Parses sigil k c (peekSymbol symbol >>= f) Q :=
  h (c.pastSymbol? symbol).isSome

/-- A symbol may be there or not. -/
theorem Parses.accept {f : Bool → PlainReader β} (l : Int) (hslash : symbol ≠ "/")
    (hyes : ∀ d, Parses sigil l d (f true) Q) (hno : Parses sigil k c (f false) Q)
    (hk : symbolWeight symbol + l = k) : Parses sigil k c (acceptSymbol symbol >>= f) Q := by
  intro w e h
  obtain ⟨accepted, d, haccept, hf⟩ := of_bind_ok h
  obtain ⟨rfl, hsymbol⟩ | ⟨rfl, -, rfl⟩ := acceptSymbol_inv haccept
  · obtain ⟨hQ, he⟩ := hyes d w e hf
    exact ⟨hQ, fun hsigil => hk ▸ (leads_symbol? hsymbol hslash).trans (he hsigil)⟩
  · exact hno w e hf

/-- A symbol must be there. -/
theorem Parses.expect {f : Unit → PlainReader β} (l : Int) (hslash : symbol ≠ "/")
    (hf : ∀ d, Parses sigil l d (f ()) Q) (hk : symbolWeight symbol + l = k) :
    Parses sigil k c (expectSymbol symbol >>= f) Q := by
  have hexpect : Parses sigil (symbolWeight symbol) c (expectSymbol symbol) fun _ _ => True :=
    .accept 0 hslash (fun _ => .pure trivial) (.get (.failAt _ _)) (Int.add_zero _)
  exact hk ▸ hexpect.bind fun _ d _ => hf d

theorem Parses.acceptWord {f : Bool → PlainReader β} (hyes : ∀ d, Parses sigil k d (f true) Q)
    (hno : Parses sigil k c (f false) Q) : Parses sigil k c (Reader.acceptWord word >>= f) Q := by
  intro w e h
  obtain ⟨accepted, d, haccept, hf⟩ := of_bind_ok h
  obtain ⟨rfl, hword⟩ | ⟨rfl, -, rfl⟩ := acceptWord_inv haccept
  · exact Parses.setPlain (f := fun _ => f true) (leads_word? hword) (hyes d) w e hf
  · exact hno w e hf

/-- A part that a word announces, or none, with the same rest behind it. -/
theorem Parses.orNone {x : PlainReader (Option α)} {f : Option α → PlainReader β}
    {P : Option α → Cursor → Prop} (hx : ∀ d, Parses sigil 0 d x P) (hnone : P none c)
    (hf : ∀ o d, P o d → Parses sigil k d (f o) Q) :
    Parses sigil k c (Reader.acceptWord word >>= fun b =>
      if b = true then x >>= f else Pure.pure none >>= f) Q :=
  .acceptWord (fun d => (hx d).andThen hf) (hf none c hnone)

theorem number_parses : Parses sigil 0 c number fun v _ => v.IsLiteral := by
  refine .get ?_
  dsimp only
  split
  · rename_i digits hdigits
    refine .cond (fun hvalue => .setPlain ?_ (.pure ?_)) fun _ => .failAt _ _
    · rw [Cursor.rest_advance]
      exact (leads_skip c).trans (leads_hexadecimal hdigits)
    · exact ⟨Int.natCast_nonneg _, by exact_mod_cast hvalue⟩
  · refine .setPlain ?_ (.pure (DecimalLiteral.isLiteral_value _))
    rw [Cursor.rest_advance]
    exact (leads_skip c).trans (leads_decimal _)

/-- A string is read at its opening quote. -/
theorem string_parses {quote : Char} {rest : List Char} (hrest : c.skip.rest = quote :: rest)
    (hquote : quote = '"' ∨ quote = '\'') : Parses sigil 0 c (string quote) fun v _ => v.IsLiteral := by
  refine .get ?_
  dsimp only
  split
  · rename_i read next hread
    refine .setPlain ?_ (.pure trivial)
    rw [hrest] at hread
    have hstring : Leads .code 0 (quote :: rest) next.rest := by
      refine .step ?_ (by rcases hquote with rfl | rfl <;> rfl)
      have hnext : Place.code.next quote = .string quote := by rcases hquote with rfl | rfl <;> rfl
      rw [hnext]
      exact leads_readQuoted hread
    exact (leads_skip c).trans (hrest ▸ hstring)
  · exact .failAt _ _

end Reader

namespace Grammar

open Reader

/-! ### Parts of programs -/

/-- A reader hands back a part of programs, in which so many more brackets are opened than closed. -/
abbrev Gives (g : TreeGrammar) (part : Part) (k : Int) (c : Cursor) (x : PlainReader Tree) : Prop :=
  Parses g.sigil k c x fun t _ => t.IsPart g.sigil part

abbrev GivesOption (g : TreeGrammar) (part : Part) (k : Int) (c : Cursor)
    (x : PlainReader (Option Tree)) : Prop :=
  Parses g.sigil k c x fun o _ => ∀ t ∈ o, Tree.IsPart g.sigil part t

abbrev GivesList (g : TreeGrammar) (part : Part) (k : Int) (c : Cursor)
    (x : PlainReader (List Tree)) : Prop :=
  Parses g.sigil k c x fun ts _ => ∀ t ∈ ts, Tree.IsPart g.sigil part t

/-- A grammar whose readers of nested parts give these parts and leave brackets as they are. -/
structure Sound (g : TreeGrammar) : Prop where
  expression {c : Cursor} : g.Gives .expression 0 c g.expression
  conditional {c : Cursor} : g.Gives .expression 0 c g.conditional
  operand {c : Cursor} : g.Gives .expression 0 c g.operand
  statement {c : Cursor} : g.GivesOption .statement 0 c g.statement

variable {g : TreeGrammar} {c : Cursor} {part : Part}

/-! ### Lists and blocks -/

theorem identifier_parses : Parses g.sigil 0 c g.identifier fun text _ => IsName g.sigil text := by
  refine fun text d h => ⟨isName_of_identifier h, fun hsigil => ?_⟩
  have hplain (ch : Char) (hch : isIdentifierStart g.sigil ch = true) : Place.isPlain ch = true :=
    Place.isPlain_of_isIdentifierStart hsigil hch
  exact (leads_skip c).trans (leads_wordHere? hplain (identifier_ok h))

theorem nameLeaf_parses : g.Gives .name 0 c g.nameLeaf :=
  .here (identifier_parses.andThen fun _ _ h => .pure (.name h))

theorem itemsWithin_parses {item : PlainReader Tree} (h : ∀ c, g.Gives part 0 c item)
    {close : String} (hclose : close ≠ "/") (n : Nat) :
    g.GivesList part (symbolWeight close) c (itemsWithin close item n) := by
  induction n generalizing c with
  | zero => exact .fail _
  | succ n ih =>
      refine .accept 0 hclose (fun _ => .pure (by simp)) ?_ (Int.add_zero _)
      refine (h c).andThen fun first _ hfirst =>
        .accept (symbolWeight close) (by decide) (fun _ => ?_) ?_ (Int.zero_add _)
      · exact ih.finish fun rest _ hrest => .pure (by simpa using ⟨hfirst, hrest⟩)
      · exact .expect 0 hclose (fun _ => .pure (by simpa using hfirst)) (Int.add_zero _)

theorem items_parses {item : PlainReader Tree} (h : ∀ c, g.Gives part 0 c item) {close : String}
    (hclose : close = ")" ∨ close = "]") : g.GivesList part (-1) c (g.items close item) := by
  have hweight : close ≠ "/" ∧ symbolWeight close = -1 := by
    rcases hclose with rfl | rfl <;> decide
  exact hweight.2 ▸ itemsWithin_parses h hweight.1 g.bound

theorem optionalExpression_parses (hg : g.Sound) (stop : String) :
    g.GivesOption .expression 0 c (g.optionalExpression stop) :=
  .peek fun _ => .cond (fun _ => .pure (by simp)) fun _ => hg.expression.some

theorem blockStatementsWithin_parses (hg : g.Sound) (n : Nat) :
    g.GivesList .statement 0 c (g.blockStatementsWithin n) := by
  induction n generalizing c with
  | zero => exact .fail _
  | succ n ih =>
      refine .skip (.get ?_)
      split
      · exact .fail _
      · exact .pure (by simp)
      · refine hg.statement.andThen fun first _ hfirst => ih.andThen fun rest _ hrest => .pure ?_
        simpa [or_imp, forall_and] using ⟨hfirst, hrest⟩

theorem block_parses (hg : g.Sound) : g.Gives .block 0 c g.block :=
  .here (.expect (-1) (by decide) (fun _ => (blockStatementsWithin_parses hg _).andThen fun _ _ h =>
    .expect 0 (by decide) (fun _ => .pure (.block h)) rfl) rfl)

/-! ### Signatures -/

theorem param_parses (hg : g.Sound) : g.Gives .param 0 c g.param := by
  refine .here (identifier_parses.andThen fun text _ htext =>
    .pure_bind (.accept 0 (by decide) (fun _ => ?_) ?_ rfl))
  · exact hg.conditional.some.andThen fun _ _ h => .pure (.param (.name htext) h)
  · exact .pure_bind (.pure (.param (.name htext) (by simp)))

theorem capturedVariable_parses : g.Gives .captured 0 c g.capturedVariable :=
  .here (identifier_parses.andThen fun _ _ h => .pure (.captured h))

theorem uses_parses (line : Nat) : g.GivesOption .uses 0 c (g.uses line) := by
  refine .acceptWord (fun _ => .expect (-1) (by decide) (fun _ => ?_) rfl) (.pure (by simp))
  exact (items_parses (fun _ => capturedVariable_parses) (.inl rfl)).finish fun _ _ h =>
    .pure (by simpa using .uses h)

theorem resultType_parses : g.GivesOption .result 0 c g.resultType := by
  have hname {d : Cursor} {mark : String} (line : Nat) (hmark : mark = "" ∨ mark = "?") :
      g.GivesOption .result 0 d
        (g.identifier >>= fun text => pure (some (Tree.name (mark ++ text) line))) :=
    identifier_parses.andThen fun _ _ h => .pure (by simpa using .result hmark h)
  refine .accept 0 (by decide) (fun _ => .here ?_) (.pure (by simp)) rfl
  exact .accept 0 (by decide) (fun _ => hname _ (.inr rfl)) (hname _ (.inl rfl)) rfl

theorem signature_parses (hg : g.Sound) (line : Nat) :
    Parses g.sigil 0 c (g.signature line) fun s _ => s.IsPart g.sigil :=
  .expect (-1) (by decide) (fun _ =>
    (items_parses (fun _ => param_parses hg) (.inl rfl)).finish fun _ _ hparams =>
      (uses_parses line).andThen fun _ _ huses => resultType_parses.andThen fun _ _ hresult =>
        .pure ⟨.params hparams, huses, hresult⟩) rfl

/-! ### Expressions in brackets and in front of them -/

theorem arguments_parses (hg : g.Sound) (line : Nat) :
    g.Gives .arguments (-1) c (g.arguments line) :=
  (items_parses (fun _ => hg.expression) (.inl rfl)).finish fun _ _ h => .pure (.arguments h)

theorem array_parses (hg : g.Sound) {close : String} (hclose : close = ")" ∨ close = "]")
    (line : Nat) : g.Gives .expression (-1) c (g.array close line) :=
  (items_parses (fun _ => hg.expression) hclose).finish fun _ _ h => .pure (.array h)

theorem newObject_parses (hg : g.Sound) (line : Nat) :
    g.Gives .expression 0 c (g.newObject line) := by
  refine nameLeaf_parses.andThen fun name _ hname => .accept (-1) (by decide) (fun _ => ?_) ?_ rfl
  · exact (arguments_parses hg line).finish fun _ _ h => .pure (.new hname h)
  · exact .pure (.new hname (.arguments (by simp)))

theorem closure_parses (hg : g.Sound) (line : Nat) : g.Gives .expression 0 c (g.closure line) :=
  (signature_parses hg line).andThen fun _ _ hs => (block_parses hg).andThen fun _ _ hbody =>
    .pure (.closure hs.params hs.uses hbody hs.result)

/-! ### Words as expressions -/

theorem isWordStart_of_isAlpha {c : Char} (h : c.isAlpha = true) : isWordStart c = true := by
  have hcode := isAlpha_iff_toNat.mp h
  have hascii : c.toNat < 0x80 := by omega
  simp [isWordStart, isAlphabetic_of_isAlpha hascii, h]

theorem isAlpha_of_toLower {c : Char} (h : c.toLower.isAlpha = true) : c.isAlpha = true := by
  delta Char.toLower at h
  split at h
  · rename_i hupper
    exact isAlpha_iff_toNat.mpr (.inl (by simpa [UInt32.le_iff_toNat_le] using hupper))
  · exact h

/-- A literal begins with a letter. -/
theorem isWordStart_of_literalWord? {first : Char} {rest : List Char}
    (h : literalWord? (String.ofList (first :: rest)) ≠ none) : isWordStart first = true := by
  refine isWordStart_of_isAlpha (isAlpha_of_toLower ?_)
  simp only [literalWord?, String.toList_ofList, List.map_cons] at h
  have hhead {w : String} {d : Char} (hd : w.toList.head? = some d)
      (hw : String.ofList (first.toLower :: rest.map Char.toLower) = w) : first.toLower = d := by
    rw [← hw, String.toList_ofList, List.head?_cons] at hd
    exact Option.some.inj hd
  have hlower : first.toLower = 't' ∨ first.toLower = 'f' ∨ first.toLower = 'n' := by
    split at h
    · exact .inl (hhead rfl ‹_›)
    · exact .inr (.inl (hhead rfl ‹_›))
    · exact .inr (.inr (hhead rfl ‹_›))
    · exact absurd rfl h
  rcases hlower with h | h | h <;> rw [h] <;> rfl

/-- What a primary expression may be: an expression, or the name of a function in front of its
arguments. -/
inductive IsPrimary (sigil : Char) (next : Cursor) : Tree → Prop
  | expression {t : Tree} (h : t.IsPart sigil .expression) : IsPrimary sigil next t
  | callee {text : String} {line : Nat} (h : IsVariableName sigil text) (harray : text ≠ "array")
    (hcall : (next.pastSymbol? "(").isSome) : IsPrimary sigil next (.name text line)

/-- A reference is a primary expression if the word that comes next, if any, is not a literal and
does not begin an array. -/
theorem reference_isPrimary {line : Nat} {c d : Cursor} {t : Tree}
    (hword : ∀ word next, c.word? = some (word, next) →
      literalWord? word = none ∧ (word = "array" → next.pastSymbol? "(" = none))
    (h : g.reference line c = .ok (t, d)) : IsPrimary g.sigil d t := by
  obtain ⟨text, hid, rfl⟩ := reference_ok h
  have hhere := identifier_ok hid
  have hname := isName_of_identifier hid
  obtain ⟨first, rest, hrest, -, htext, hd⟩ := wordHere?_eq_some.mp hhere
  have hfree : literalWord? text = none ∧ (text = "array" → d.pastSymbol? "(" = none) := by
    by_cases hfirst : isWordStart first = true
    · exact hword text d (wordHere?_eq_some.mpr ⟨first, rest, hrest, hfirst, htext, hd⟩)
    · constructor
      · exact Classical.not_not.mp fun hl => hfirst (isWordStart_of_literalWord? (htext ▸ hl))
      · intro harray
        have hlist := congrArg String.toList (htext.trans harray)
        rw [String.toList_ofList] at hlist
        rw [(List.cons.inj hlist).1] at hfirst
        exact absurd rfl hfirst
  by_cases hcall : (d.pastSymbol? "(").isSome
  · rw [if_pos hcall]
    refine .callee ⟨hname, hfree.1⟩ (fun harray => ?_) hcall
    rw [hfree.2 harray] at hcall
    cases hcall
  · rw [if_neg hcall]
    exact .expression (.var ⟨hname, hfree.1⟩)

theorem reference_parses {line : Nat} (hword : ∀ word next, c.word? = some (word, next) →
      literalWord? word = none ∧ (word = "array" → next.pastSymbol? "(" = none)) :
    Parses g.sigil 0 c (g.reference line) fun t d => IsPrimary g.sigil d t := by
  intro t d h
  obtain ⟨text, hid, -⟩ := reference_ok h
  exact ⟨reference_isPrimary hword h, (identifier_parses text d hid).2⟩

theorem Gives.isPrimary {k : Int} {x : PlainReader Tree} (h : g.Gives .expression k c x) :
    Parses g.sigil k c x fun t d => IsPrimary g.sigil d t :=
  h.mono fun _ _ ht => .expression ht

theorem worded_parses (hg : g.Sound) (line : Nat) :
    Parses g.sigil 0 c (g.worded line) fun t d => IsPrimary g.sigil d t := by
  refine .get ?_
  split
  · rename_i hw
    exact reference_parses (by simp [hw])
  · rename_i word next hw
    have hnext := leads_word? hw
    split
    · rename_i value hvalue
      exact .setPlain hnext (.pure (.expression (.literal (isLiteral_of_literalWord? hvalue))))
    · rename_i hl
      split
      · exact .setPlain hnext (Gives.isPrimary (newObject_parses hg line))
      · exact .setPlain hnext (Gives.isPrimary (closure_parses hg line))
      · split
        · rename_i behind hbehind
          have hparen : Leads .code 1 c.rest behind.rest :=
            hnext.trans (leads_symbol? (Cursor.pastSymbol?_eq_some.mp hbehind) (by decide))
          exact .set 1 (fun _ => hparen) (Gives.isPrimary (array_parses hg (.inl rfl) line)) rfl
        · rename_i hnext
          exact reference_parses (by simpa [hw] using ⟨hl, hnext⟩)
      · rename_i hne
        exact reference_parses (by simpa [hw, hl] using fun h => absurd h hne)

/-! ### Expressions -/

theorem primary_parses (hg : g.Sound) :
    Parses g.sigil 0 c g.primary fun t d => IsPrimary g.sigil d t := by
  refine .here (.get ?_)
  have hworded := worded_parses (c := c.skip) hg c.skip.position.line
  split
  · exact hworded
  · rename_i first rest hrest
    have hskip : c.skip.skip.rest = first :: rest := by rw [skip_skip, hrest]
    refine .cond (fun _ => ?_) fun _ => .cond (fun hquote => ?_) fun _ => ?_
    · exact number_parses.andThen fun _ _ h => .pure (.expression (.literal h))
    · exact (string_parses hskip hquote).andThen fun _ _ h => .pure (.expression (.literal h))
    · refine .accept (-1) (by decide) (fun _ => ?_) ?_ rfl
      · exact hg.expression.andThen fun _ _ h =>
          .expect 0 (by decide) (fun _ => .pure (.expression h)) rfl
      · exact .accept (-1) (by decide)
          (fun _ => Gives.isPrimary (array_parses hg (.inr rfl) _)) hworded rfl

theorem member_parses (hg : g.Sound) {object : Tree} (h : object.IsPart g.sigil .expression)
    (line : Nat) : g.Gives .expression 0 c (g.member object line) := by
  refine nameLeaf_parses.andThen fun name _ hname => .accept (-1) (by decide) (fun _ => ?_) ?_ rfl
  · exact (arguments_parses hg _).finish fun _ _ harguments =>
      .pure (.methodCall h hname harguments)
  · exact .pure (.prop h hname)

/-- What follows an expression closes what its first symbol opens. -/
theorem suffix?_parses (hg : g.Sound) {symbol : String} {inner : Tree} {line : Nat}
    {x : PlainReader Tree} (h : inner.IsPart g.sigil .expression)
    (hx : g.suffix? symbol inner line = some x) :
    symbol ≠ "/" ∧ g.Gives .expression (-symbolWeight symbol) c x := by
  unfold suffix? at hx
  split at hx <;> cases hx
  · exact ⟨by decide, (arguments_parses hg _).finish fun _ _ harguments => .pure (.call h harguments)⟩
  · exact ⟨by decide, (optionalExpression_parses hg _).andThen fun _ _ hindex =>
      .expect 0 (by decide) (fun _ => .pure (.dim h hindex)) rfl⟩
  · exact ⟨by decide, member_parses hg h line⟩
  · exact ⟨by decide, .pure (.ofOperands [inner] rfl rfl (by simpa using h))⟩
  · exact ⟨by decide, .pure (.ofOperands [inner] rfl rfl (by simpa using h))⟩

theorem suffixesWithin_parses (hg : g.Sound) (n : Nat) {inner : Tree}
    (h : inner.IsPart g.sigil .expression) :
    g.Gives .expression 0 c (g.suffixesWithin n inner) := by
  induction n generalizing c inner with
  | zero => exact .fail _
  | succ n ih =>
      refine .get ?_
      split
      · exact .pure h
      · rename_i symbol next hsymbol
        refine .pure_bind ?_
        split
        · exact .pure h
        · rename_i x hx
          obtain ⟨hslash, hgives⟩ := suffix?_parses hg h hx
          exact .set (symbolWeight symbol) (fun _ => leads_symbol? hsymbol hslash)
            (hgives.finish fun _ _ ht => ih ht) (Int.add_right_neg _)

/-- The name of a function is not an expression by itself, but its arguments follow. -/
theorem postfixed_parses (hg : g.Sound) : g.Gives .expression 0 c g.postfixed := by
  refine (primary_parses hg).andThen fun inner d hinner => ?_
  cases hinner with
  | expression hpart => exact suffixesWithin_parses hg _ hpart
  | callee hname harray hcall =>
      obtain ⟨next, hnext⟩ := symbol?_of_pastSymbol? hcall
      cases g.bound with
      | zero => exact .fail _
      | succ n =>
          refine .get ?_
          simp only [hnext, lineOf_tree, pure_bind, suffix?]
          refine .set 1 (fun _ => leads_symbol? hnext (by decide)) (n := -1) ?_ rfl
          refine Parses.finish (P := fun t _ => t.IsPart g.sigil .expression) ?_
            fun _ _ ht => suffixesWithin_parses hg n ht
          exact (arguments_parses hg _).finish fun _ _ harguments =>
            .pure (.callName hname harray harguments)

/-! ### Operators -/

theorem operation_isPart {sigil : Char} {kind : FixedKind} {left right : Tree} {line : Nat}
    (hkind : kind.isOperation) (harity : kind.arity = 2) (hleft : left.IsPart sigil .expression)
    (hright : right.IsPart sigil .expression) :
    (Tree.fixed kind [some left, some right] line).IsPart sigil .expression :=
  .ofOperands [left, right] hkind harity.symm (by simpa using ⟨hleft, hright⟩)

theorem power_parses (hg : g.Sound) : g.Gives .expression 0 c g.power := by
  refine (postfixed_parses hg).andThen fun base _ hbase =>
    .accept 0 (by decide) (fun _ => ?_) (.pure hbase) rfl
  exact hg.operand.andThen fun _ _ h => .pure (operation_isPart rfl rfl hbase h)

theorem unary_parses (hg : g.Sound) : g.Gives .expression 0 c g.unary := by
  refine .here (.get ?_)
  split
  · exact power_parses hg
  · rename_i symbol next hsymbol
    split
    · exact power_parses hg
    · rename_i kind hkind
      obtain ⟨hoperation, harity⟩ := isOperation_of_leadingOperator? hkind
      obtain ⟨hslash, hweight⟩ := leadingOperator?_weight hkind
      refine .setPlain (hweight ▸ leads_symbol? hsymbol hslash) (hg.operand.andThen fun operand _ h => ?_)
      exact .pure (.ofOperands [operand] hoperation harity.symm (by simpa using h))

theorem instanceTestsWithin_parses (hg : g.Sound) (n : Nat) {left : Tree}
    (h : left.IsPart g.sigil .expression) :
    g.Gives .expression 0 c (g.instanceTestsWithin n left) := by
  induction n generalizing c left with
  | zero => exact .fail _
  | succ n ih =>
      exact .acceptWord (fun _ => (unary_parses hg).andThen fun _ _ hright =>
        ih (operation_isPart rfl rfl h hright)) (.pure h)

theorem ne_star_of_isValidSigil {sigil : Char} (h : isValidSigil sigil = true) : sigil ≠ '*' :=
  fun hstar => absurd (hstar ▸ h) (by decide)

theorem binaryTailWithin_parses {operand : PlainReader Tree}
    (hoperand : ∀ c, g.Gives .expression 0 c operand) (hneeds : operand.Needs g.AtExpression)
    (level n : Nat) {left : Tree} (h : left.IsPart g.sigil .expression) :
    g.Gives .expression 0 c (binaryTailWithin operand level n left) := by
  induction n generalizing c left with
  | zero => exact .fail _
  | succ n ih =>
      refine .get ?_
      split
      · exact .pure h
      · rename_i symbol next hsymbol
        split
        · exact .pure h
        · rename_i op hop
          refine .of_ok ?_
          rintro ⟨t, d⟩ hread
          rw [set_bind_apply] at hread
          obtain ⟨right, e, hright, -⟩ := of_bind_ok hread
          have hnext (hsigil : isValidSigil g.sigil = true) : Leads .code 0 c.rest next.rest := by
            by_cases hslash : symbol = "/"
            · -- the operand has been read behind the slash
              subst hslash
              exact leads_slash hsymbol (not_star_of_atExpression (ne_star_of_isValidSigil hsigil)
                (hneeds next _ hright))
            · exact binaryOperator?_weight hop ▸ leads_symbol? hsymbol hslash
          exact .set 0 hnext ((hoperand next).andThen fun _ _ hright =>
            ih (operation_isPart rfl rfl h hright)) rfl

theorem binary_parses (hg : g.Sound) (levels : Nat) :
    g.Gives .expression 0 c (g.binary levels) := by
  induction levels generalizing c with
  | zero => exact (unary_parses hg).andThen fun _ _ h => instanceTestsWithin_parses hg g.bound h
  | succ levels ih =>
      exact ih.andThen fun _ _ h => binaryTailWithin_parses (fun _ => ih)
        (binary_needs (unary_atExpression g) levels) _ g.bound h

theorem choice_parses (hg : g.Sound) : g.Gives .expression 0 c g.choice := by
  refine .here ((binary_parses hg _).andThen fun condition _ hcondition =>
    .accept 0 (by decide) (fun _ => ?_) (.pure hcondition) rfl)
  refine hg.expression.andThen fun yes _ hyes => .expect 0 (by decide) (fun _ => ?_) rfl
  refine hg.conditional.andThen fun no _ hno => .pure ?_
  exact .ofOperands [condition, yes, no] rfl rfl (by simpa using ⟨hcondition, hyes, hno⟩)

theorem assignment_parses (hg : g.Sound) : g.Gives .expression 0 c g.assignment := by
  refine .here ((choice_parses hg).andThen fun target _ htarget => .get ?_)
  split
  · exact .pure htarget
  · rename_i symbol next hsymbol
    split
    · exact .pure htarget
    · rename_i kind hkind
      obtain ⟨hoperation, harity⟩ := isOperation_of_assignmentOperator? hkind
      obtain ⟨hslash, hweight⟩ :=
        assignmentOperator?_weight (mem_symbols_of_symbol? hsymbol).1 hkind
      exact .setPlain (hweight ▸ leads_symbol? hsymbol hslash) (hg.expression.andThen
        fun value _ hvalue => .pure (operation_isPart hoperation harity htarget hvalue))

/-! ### Statements -/

theorem condition_parses (hg : g.Sound) : g.Gives .expression 0 c g.condition :=
  .expect (-1) (by decide) (fun _ => hg.expression.andThen fun _ _ h =>
    .expect 0 (by decide) (fun _ => .pure h) rfl) rfl

theorem ifElseWithin_parses (hg : g.Sound) (n line : Nat) :
    g.Gives .statement 0 c (g.ifElseWithin n line) := by
  induction n generalizing c line with
  | zero => exact .fail _
  | succ n ih =>
      refine (condition_parses hg).andThen fun condition _ hcondition =>
        hg.statement.andThen fun yes _ hyes => .acceptWord (fun _ => ?_) (.acceptWord (fun _ => ?_) ?_)
      · exact .here ((ih _).andThen fun no _ hno =>
          .pure (.ifElse hcondition hyes (by simpa using hno)))
      · exact hg.statement.andThen fun no _ hno => .pure (.ifElse hcondition hyes hno)
      · exact .pure (.ifElse hcondition hyes (by simp))

theorem whileLoop_parses (hg : g.Sound) (line : Nat) :
    g.Gives .statement 0 c (g.whileLoop line) :=
  (condition_parses hg).andThen fun _ _ hcondition => hg.statement.andThen fun _ _ hbody =>
    .pure (.whileLoop hcondition hbody)

theorem forLoop_parses (hg : g.Sound) (line : Nat) : g.Gives .statement 0 c (g.forLoop line) :=
  .expect (-1) (by decide) (fun _ => (optionalExpression_parses hg _).andThen fun _ _ hstart =>
    .expect (-1) (by decide) (fun _ => (optionalExpression_parses hg _).andThen fun _ _ hcondition =>
      .expect (-1) (by decide) (fun _ => (optionalExpression_parses hg _).andThen fun _ _ hstep =>
        .expect 0 (by decide) (fun _ => hg.statement.andThen fun _ _ hbody =>
          .pure (.forLoop hstart hcondition hstep hbody)) rfl) rfl) rfl) rfl

theorem returnStatement_parses (hg : g.Sound) (line : Nat) :
    g.Gives .statement 0 c (g.returnStatement line) :=
  (optionalExpression_parses hg _).andThen fun _ _ h =>
    .expect 0 (by decide) (fun _ => .pure (.ret h)) rfl

theorem echoStatement_parses (hg : g.Sound) (line : Nat) :
    g.Gives .statement 0 c (g.echoStatement line) :=
  hg.expression.andThen fun _ _ h => .expect 0 (by decide) (fun _ => .pure (.echo h)) rfl

theorem expressionStatement_parses (hg : g.Sound) :
    g.Gives .statement 0 c g.expressionStatement :=
  hg.expression.andThen fun _ _ h => .expect 0 (by decide) (fun _ => .pure (.ofExpression h)) rfl

theorem functionDeclaration_parses (hg : g.Sound) (line : Nat) :
    g.Gives .statement 0 c (g.functionDeclaration line) :=
  identifier_parses.andThen fun _ _ hname => (signature_parses hg line).andThen fun _ _ hs =>
    (block_parses hg).andThen fun _ _ hbody =>
      .pure (.function hname hs.params hs.uses hbody hs.result)

/-- What holds of a set of flags and is kept by each modifier holds of all that is read. -/
theorem modifiersWithin_parses {sigil : Char} {p : Nat → Prop}
    (hp : ∀ flags word bit, modifierBit? word = some bit → p flags → p (flags ||| bit)) (n : Nat)
    {flags : Nat} (h : p flags) : Parses sigil 0 c (modifiersWithin n flags) fun v _ => p v := by
  induction n generalizing c flags with
  | zero => exact .fail _
  | succ n ih =>
      refine .get ?_
      split
      · rename_i word next hword
        split
        · rename_i hbit
          exact .setPlain (leads_word? hword) (ih (hp _ _ _ hbit h))
        · exact .pure h
      · exact .pure h

theorem modifierBit?_lt {word : String} {bit : Nat} (h : modifierBit? word = some bit) : bit < 64 := by
  have hall : ∀ m ∈ modifierKeywords, m.1 < 64 := by decide
  obtain ⟨m, hm, rfl⟩ := Option.map_eq_some_iff.mp h
  exact hall m (List.mem_of_find?_eq_some hm)

theorem modifiers_parses : Parses g.sigil 0 c g.modifiers fun flags _ => flags < 64 :=
  modifiersWithin_parses (fun _ _ _ hbit h => Nat.or_lt_two_pow (n := 6) h (modifierBit?_lt hbit)) _
    (by decide)

/-- Where a class begins, there are no modifiers, or one of the two that classes have. -/
theorem modifiers_class {next d : Cursor} {word : String} {flags : Nat}
    (hw : c.word? = some (word, next)) (hword : word = "class" ∨ word = "abstract" ∨ word = "final")
    (h : g.modifiers c = .ok (flags, d)) : flags = 0 ∨ flags &&& 48 ≠ 0 := by
  have hkeep {bit : Nat} (hbit : bit &&& 48 ≠ 0) (n : Nat) :
      Parses g.sigil 0 next (modifiersWithin n bit) fun v _ => v &&& 48 ≠ 0 := by
    refine modifiersWithin_parses (fun flags _ bit _ hflags heq => hflags ?_) n hbit
    rw [Nat.and_or_distrib_right, Nat.or_eq_zero_iff] at heq
    exact heq.1
  rw [modifiers] at h
  cases hbound : g.bound with
  | zero =>
      rw [hbound] at h
      cases h
  | succ n =>
      rw [hbound, modifiersWithin, get_bind_apply, hw] at h
      rcases hword with rfl | rfl | rfl
      · cases h
        exact .inl rfl
      · exact .inr (hkeep (by decide) n _ _ h).1
      · exact .inr (hkeep (by decide) n _ _ h).1

theorem method_parses (hg : g.Sound) : g.Gives .method 0 c g.method := by
  refine .here (modifiers_parses.andThen fun flags _ hflags =>
    .acceptWord (fun _ => ?_) (.fail_bind _))
  refine identifier_parses.andThen fun name _ hname => (signature_parses hg _).andThen
    fun s _ hs => .accept 0 (by decide) (fun _ => .pure_bind (.pure ?_)) ?_ rfl
  · exact .method hflags hname hs.params hs.uses (by simp) hs.result
  · exact (Parses.some (block_parses hg)).andThen fun body _ hbody =>
      .pure (.method hflags hname hs.params hs.uses hbody hs.result)

theorem methodsWithin_parses (hg : g.Sound) (n : Nat) :
    g.GivesList .method (-1) c (g.methodsWithin n) := by
  induction n generalizing c with
  | zero => exact .fail _
  | succ n ih =>
      refine .accept 0 (by decide) (fun _ => .pure (by simp)) ?_ rfl
      exact (method_parses hg).andThen fun _ _ hfirst => ih.finish fun _ _ hrest =>
        .pure (by simpa using ⟨hfirst, hrest⟩)

theorem namesWithin_parses (n : Nat) : Parses g.sigil 0 c (g.namesWithin n) fun ts _ =>
    ts ≠ [] ∧ ∀ t ∈ ts, Tree.IsPart g.sigil .name t := by
  induction n generalizing c with
  | zero => exact .fail _
  | succ n ih =>
      refine nameLeaf_parses.andThen fun first _ hfirst => .accept 0 (by decide) (fun _ => ?_) ?_ rfl
      · exact ih.andThen fun _ _ hrest => .pure (by simpa using ⟨hfirst, hrest.2⟩)
      · exact .pure (by simpa using hfirst)

theorem classDeclaration_parses (hg : g.Sound) (line : Nat)
    (hfirst : ∀ flags d, g.modifiers c = .ok (flags, d) → flags = 0 ∨ flags &&& 48 ≠ 0) :
    g.Gives .statement 0 c (g.classDeclaration line) := by
  have hmodifiers : Parses g.sigil 0 c g.modifiers fun flags _ =>
      flags < 64 ∧ (flags = 0 ∨ flags &&& 48 ≠ 0) := fun flags d h =>
    have hflags := modifiers_parses flags d h
    ⟨⟨hflags.1, hfirst flags d h⟩, hflags.2⟩
  refine hmodifiers.andThen fun flags _ hflags => .acceptWord (fun _ => ?_) (.fail_bind _)
  refine identifier_parses.andThen fun name _ hname =>
    .orNone (P := fun o _ => ∀ t ∈ o, Tree.IsPart g.sigil .name t)
      (fun _ => nameLeaf_parses.some) (by simp) fun parent _ hparent => ?_
  have hbody {interfaces : Option Tree} (h : ∀ t ∈ interfaces, Tree.IsPart g.sigil .names t)
      (d : Cursor) : g.Gives .statement 0 d (here >>= fun bodyLine =>
        expectSymbol "\x7b" >>= fun _ => g.methodsWithin g.bound >>= fun methods =>
          pure (.node line (.decl .classDef name flags)
            [parent, interfaces, some (.list .stmtList methods bodyLine)])) :=
    .here (.expect (-1) (by decide) (fun _ => (methodsWithin_parses hg _).finish
      fun _ _ hmethods => .pure (.classDef hflags.1 hflags.2 hname hparent h hmethods)) rfl)
  refine .acceptWord (fun _ => ?_) (.pure_bind (hbody (by simp) _))
  exact (namesWithin_parses _).andThen fun names d h =>
    .pure_bind (hbody (by simpa using .names h.1 h.2) d)

theorem plainStatement_parses (hg : g.Sound) (line : Nat) :
    g.Gives .statement 0 c (g.plainStatement line) := by
  have hexpression : g.Gives .statement 0 c g.expressionStatement := expressionStatement_parses hg
  refine .get ?_
  split
  · exact hexpression
  · rename_i word next hw
    have hnext := leads_word? hw
    split
    · exact .setPlain hnext (ifElseWithin_parses hg _ line)
    · exact .setPlain hnext (whileLoop_parses hg line)
    · exact .setPlain hnext (forLoop_parses hg line)
    · exact .setPlain hnext (returnStatement_parses hg line)
    · exact .setPlain hnext (echoStatement_parses hg line)
    · exact .cond (fun _ => .setPlain hnext (functionDeclaration_parses hg line))
        fun _ => hexpression
    · exact classDeclaration_parses hg line fun _ _ => modifiers_class hw (.inl rfl)
    · exact classDeclaration_parses hg line fun _ _ => modifiers_class hw (.inr (.inl rfl))
    · exact classDeclaration_parses hg line fun _ _ => modifiers_class hw (.inr (.inr rfl))
    · exact hexpression

theorem anyStatement_parses (hg : g.Sound) : g.GivesOption .statement 0 c g.anyStatement := by
  refine .here (.accept 0 (by decide) (fun _ => .pure (by simp)) (.get ?_) rfl)
  split
  · exact Parses.some ((block_parses hg).mono fun _ _ h => .ofBlock h)
  · exact (plainStatement_parses hg _).some

/-! ### Programs -/

theorem programStatementsWithin_parses (hg : g.Sound) (n : Nat) :
    g.GivesList .statement 0 c (g.programStatementsWithin n) := by
  induction n generalizing c with
  | zero => exact .fail _
  | succ n ih =>
      refine .skip (.get ?_)
      split
      · exact .pure (by simp)
      · exact .pure (by simp)
      · refine hg.statement.andThen fun first _ hfirst => ih.andThen fun rest _ hrest => .pure ?_
        simpa [or_imp, forall_and] using ⟨hfirst, hrest⟩

theorem optionalTag_parses {sigil : Char} {tag : String} (htag : tag.toList.all Place.isPlain = true) :
    Parses sigil 0 c (optionalTag tag) fun _ _ => True := by
  rintro v d ⟨⟩
  have htail : Leads .code 0 c.skip.rest ((c.skip.past? tag.toList).getD c.skip).rest := by
    cases hpast : c.skip.past? tag.toList with
    | none => exact .refl _
    | some next => exact leads_past? htag hpast
  exact ⟨trivial, fun _ => (leads_skip c).trans htail⟩

theorem program_parses (hg : g.Sound) : g.Gives .block 0 c g.program := by
  refine (optionalTag_parses (by decide)).andThen fun _ _ _ =>
    (programStatementsWithin_parses hg _).andThen fun _ _ h =>
      (optionalTag_parses (by decide)).andThen fun _ _ _ => .skip (.get ?_)
  split
  · exact .pure (.block h)
  · exact .fail _

theorem ofDepth_sound (sigil : Char) (bound depth : Nat) :
    (ofDepth sigil bound depth : TreeGrammar).Sound := by
  induction depth with
  | zero => exact ⟨.fail _, .fail _, .fail _, .fail _⟩
  | succ depth ih =>
      have hsigil : (ofDepth sigil bound depth : TreeGrammar).sigil = sigil :=
        sigil_ofDepth sigil bound depth
      have hassignment {c : Cursor} := assignment_parses (c := c) ih
      have hchoice {c : Cursor} := choice_parses (c := c) ih
      have hunary {c : Cursor} := unary_parses (c := c) ih
      have hstatement {c : Cursor} := anyStatement_parses (c := c) ih
      simp only [Gives, GivesOption, hsigil] at hassignment hchoice hunary hstatement
      exact ⟨hassignment, hchoice, hunary, hstatement⟩

end Grammar

/-- A program that is accepted is a block of statements; under a valid sigil its text opens as many
brackets as it closes. -/
theorem parses_of_readProgram {sigil : Char} {source : List Char} {t : Tree}
    (h : readProgram sigil source = .ok t) : t.IsPart sigil .block ∧
      (isValidSigil sigil = true → Leads .code 0 source []) := by
  obtain ⟨d, hprogram⟩ := program_of_readProgram h
  obtain ⟨-, -, -, -, -, hend⟩ := Grammar.program_ok hprogram
  have hparses := Grammar.program_parses (Grammar.ofDepth_sound sigil (source.length + 1) _) _ _ hprogram
  rwa [Grammar.sigil_ofDepth, hend] at hparses

theorem readProgram_isPart {sigil : Char} {source : List Char} {t : Tree}
    (h : readProgram sigil source = .ok t) : t.IsPart sigil .block :=
  (parses_of_readProgram h).1

/-- A program ends outside strings, and the brackets in its code are balanced. -/
theorem balanced_of_readProgram {sigil : Char} (hsigil : isValidSigil sigil = true)
    {source : List Char} {t : Tree} (h : readProgram sigil source = .ok t) :
    (Place.code.after source).quote? = none ∧ Place.depthAt Place.isCode .code source = 0 := by
  have hleads := (parses_of_readProgram h).2 hsigil
  exact ⟨hleads.quote?_eq, hleads.depth_eq⟩

end SnippetRewrite
