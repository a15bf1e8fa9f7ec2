import SnippetRewrite.Proofs.Parse.Chain
import SnippetRewrite.Proofs.Syntax.Spelled

/-!
Texts of statements. A statement is read up to its end whatever follows, with one exception: where
an `if` has no `else`, the next word must not be one. Statements one after the other are read up to
the brace that closes them or to the end of the text.
-/

namespace SnippetRewrite

variable {x y more cs : List Char} {t : Tree} {o : Option Tree} {c : Cursor} {bound depth line : Nat}

/-! ### How statements begin -/

/-- Texts in front of which an `if` without `else` ends. -/
def NoElse (more : List Char) : Prop :=
  ∀ rest, nextWord? more ≠ some ("else", rest) ∧ nextWord? more ≠ some ("elseif", rest)

structure Begins (x : List Char) : Prop where
  first : ∃ d cs, x = d :: cs ∧ startsToken d = true ∧ d ∉ ['\x7d', '?', '<']
  noElse : ∀ more, NoElse (x ++ more)

theorem NoElse.of_none (h : nextWord? more = none) : NoElse more := by
  intro rest
  rw [h]
  exact ⟨nofun, nofun⟩

theorem nextWord?_ne {word other : String} (h : nextWord? more = some (word, cs))
    (hne : word ≠ other) : ∀ rest, nextWord? more ≠ some (other, rest) := by
  intro rest heq
  exact hne (congrArg Prod.fst (Option.some.inj (h.symm.trans heq)))

theorem NoElse.of_word {word : String} (h : nextWord? more = some (word, cs))
    (hword : word ≠ "else" ∧ word ≠ "elseif") : NoElse more :=
  fun rest => ⟨nextWord?_ne h hword.1 rest, nextWord?_ne h hword.2 rest⟩

theorem Begins.of_first {d : Char} (hd : startsToken d = true) (hstart : isWordStart d = false)
    (hne : d ∉ ['\x7d', '?', '<']) : Begins (d :: cs) where
  first := ⟨d, cs, rfl, hd, hne⟩
  noElse _ := .of_none (nextWord?_of_not_start hd hstart)

theorem nextWord?_blank (cs : List Char) : nextWord? (' ' :: cs) = nextWord? cs := by
  rw [nextWord?, nextWord?, skipped_separator rfl]

def isWord (text : String) : Bool :=
  text.toList.head?.any isWordStart && text.toList.tail.all isWordChar

theorem nextWord?_append {word : String} (h : isWord word = true) (hcs : Closed cs) :
    nextWord? (word.toList ++ cs) = some (word, cs) := by
  obtain ⟨hfirst, htail⟩ := (Bool.and_eq_true _ _).mp h
  cases hlist : word.toList with
  | nil =>
      rw [hlist] at hfirst
      cases hfirst
  | cons first tail =>
      rw [hlist] at hfirst htail
      rw [nextWord?_identifier (by simpa using hfirst) (by simpa using htail) hcs, ← hlist,
        String.ofList_toList]

theorem Begins.of_word {word : String} (h : isWord word = true) (hcs : Closed cs)
    (hne : word ≠ "else" ∧ word ≠ "elseif") (hcons : cs ≠ []) : Begins (word.toList ++ cs) where
  first := by
    obtain ⟨hfirst, -⟩ := (Bool.and_eq_true _ _).mp h
    cases hlist : word.toList with
    | nil =>
        rw [hlist] at hfirst
        cases hfirst
    | cons first tail =>
        rw [hlist] at hfirst
        have hstart : isWordStart first = true := by simpa using hfirst
        refine ⟨first, tail ++ cs, rfl, startsToken_of_opensTerm (by simp [opensTerm, hstart]), ?_⟩
        intro hmem
        simp only [List.mem_cons, List.not_mem_nil, or_false] at hmem
        rcases hmem with rfl | rfl | rfl <;> exact absurd hstart (by decide)
  noElse more := by
    rw [List.append_assoc]
    exact .of_word (nextWord?_append h (hcs.append hcons more)) hne

/-- Text is read from its first character on. -/
theorem skip_of_startsToken (h : ∃ d cs, x = d :: cs ∧ startsToken d = true)
    (hc : c.rest = x ++ more ∨ c.rest = ' ' :: (x ++ more)) : c.skip.rest = x ++ more := by
  obtain ⟨d, cs, rfl, hd⟩ := h
  have hself : skipped (d :: cs ++ more) = d :: cs ++ more := skipped_eq_self hd
  rw [rest_skip]
  rcases hc with hc | hc
  · rw [hc, hself]
  · rw [hc, skipped_separator rfl, hself]

/-! ### Reading a statement -/

/-- A text is read as a statement, or as a lone semicolon, unless an `else` follows that it takes. -/
def Tells (x : List Char) (o : Option Tree) : Prop :=
  ∀ ⦃bound depth : Nat⦄ ⦃c : Cursor⦄ ⦃more : List Char⦄, c.skip.rest = x ++ more →
    (o.any Tree.takesElse = true → NoElse more) → x.length ≤ depth → (x ++ more).length < bound →
    (Grammar.ofDepth defaultSigil bound depth).anyStatement.Takes c more
      fun v => Tree.sameSlots [v] [o] = true

theorem Tells.statement (h : Tells x o) (hc : c.skip.rest = x ++ more)
    (hno : o.any Tree.takesElse = true → NoElse more) (hdepth : x.length < depth)
    (hbound : (x ++ more).length < bound) :
    (Grammar.ofDepth defaultSigil bound depth).statement.Takes c more
      fun v => Tree.sameSlots [v] [o] = true := by
  cases depth with
  | zero => cases hdepth
  | succ depth => exact h hc hno (Nat.le_of_lt_succ hdepth) hbound

/-- Something optional, read because it is there. -/
theorem some_takes {read : PlainReader Tree} (h : read.Takes c more (·.same t = true)) :
    (some <$> read).Takes c more fun v => Tree.sameSlots [v] [some t] = true := by
  rw [← bind_pure_comp]
  exact h.bind fun v d hd hv => .pure hd (by simp [Tree.sameSlots, hv])

/-- A statement that begins with neither a semicolon nor a brace. -/
theorem anyStatement_of_plain {g : TreeGrammar} {d : Char} (hc : c.skip.rest = d :: cs)
    (hd : d ≠ ';' ∧ d ≠ '\x7b')
    (h : (g.plainStatement c.skip.position.line).Takes c.skip more (·.same t = true)) :
    g.anyStatement.Takes c more fun v => Tree.sameSlots [v] [some t] = true := by
  have hno : ∀ rest, nextSymbol? c.skip.rest ≠ some (";", rest) := by
    intro rest hs
    have hhead := head_nextSymbol? ((congrArg Cursor.rest (skip_skip c)).trans hc) hs
    exact hd.1 (Option.some.inj hhead).symm
  refine .here (.step (Reader.acceptSymbol_not hno) ?_)
  rw [if_neg Bool.false_ne_true]
  refine .get ?_
  rw [hc]
  split
  · rename_i heq
    exact absurd (List.cons.inj heq).1 hd.2
  · exact some_takes h

/-- A statement that begins with a keyword is read by what belongs to that. -/
theorem anyStatement_of_keyword {g : TreeGrammar} {word : String} (read : Nat → PlainReader Tree)
    (hread : ∀ (c d : Cursor) line, c.word? = some (word, d) → d.rest = cs →
      g.plainStatement line c = read line d)
    (hword : isWord word = true) (hc : c.skip.rest = word.toList ++ cs) (hcs : Closed cs)
    (h : ∀ d line, d.rest = cs → (read line).Takes d more (·.same t = true)) :
    g.anyStatement.Takes c more fun v => Tree.sameSlots [v] [some t] = true := by
  obtain ⟨hfirst, -⟩ := (Bool.and_eq_true _ _).mp hword
  obtain ⟨d, hd, hdrest⟩ := word?_of_some (hc ▸ nextWord?_append hword hcs)
  cases hlist : word.toList with
  | nil =>
      rw [hlist] at hfirst
      cases hfirst
  | cons first tail =>
      rw [hlist] at hc hfirst
      have hne : first ≠ ';' ∧ first ≠ '\x7b' := by
        have hstart : isWordStart first = true := by simpa using hfirst
        constructor <;> rintro rfl <;> exact absurd hstart (by decide)
      refine anyStatement_of_plain hc hne ?_
      obtain ⟨v, e, hv, he, hsame⟩ := h d c.skip.position.line hdrest
      exact ⟨v, e, (hread c.skip d _ hd hdrest).trans hv, he, hsame⟩

/-! ### Expressions as statements -/

/-- An opening parenthesis is no name. -/
theorem peekIdentifier_of_symbol {g : TreeGrammar} (hsigil : g.sigil = defaultSigil) {rest : List Char}
    (h : nextSymbol? c.rest = some ("(", rest)) : g.peekIdentifier c = false := by
  have hfirst : c.skip.rest = '(' :: rest := by
    rw [rest_skip]
    exact eq_append_of_afterStart (mem_symbols_of_symbolAt? h).2
  have hnone : c.skip.wordHere? (isIdentifierStart defaultSigil) = none := by
    rw [Cursor.wordHere?, hfirst]
    exact if_neg (by decide)
  have hread : (Reader.anyIdentifier defaultSigil : PlainReader String) c =
      .error ⟨.identifierStart, c.skip⟩ := by
    rw [Reader.anyIdentifier, Reader.get_bind_apply, hnone]
    rfl
  rw [Grammar.peekIdentifier, hsigil, Reader.identifier, Reader.get_bind_apply,
    Reader.bind_error hread]
  rfl

theorem expressionStatement_takes (h : Legible Strength.assignment x t)
    (hc : c.skip.rest = x ++ ';' :: more) (hdepth : x.length < depth)
    (hbound : (x ++ ';' :: more).length < bound) :
    (Grammar.ofDepth defaultSigil bound depth).expressionStatement.Takes c more
      (·.same t = true) := by
  have hsemicolon : nextSymbol? (';' :: more) = some (";", more) := rfl
  refine .bind (h.expression hc (.of_closer (by decide) Nat.one_pos) hdepth hbound)
    fun v d hd hv => ?_
  obtain ⟨e, he, herest⟩ := Reader.expectSymbol_ok (hd ▸ hsemicolon)
  exact .step he (.pure herest hv)

/-- No keyword keeps an expression from being read as a statement. -/
theorem plainStatement_takes (h : Legible Strength.assignment x t) (hc : c.skip.rest = x ++ ';' :: more)
    (hdepth : x.length < depth) (hbound : (x ++ ';' :: more).length < bound) (line : Nat) :
    ((Grammar.ofDepth defaultSigil bound depth).plainStatement line).Takes c more
      (·.same t = true) := by
  have hread := expressionStatement_takes h hc hdepth hbound
  have hclosed : Closed (';' :: more) := .of_head (by decide)
  refine .get ?_
  cases hw : nextWord? c.rest with
  | none =>
      rw [word?_of_none hw]
      exact hread
  | some r =>
      obtain ⟨w, rest⟩ := r
      have hword : w ∈ keywords → w = "new" ∨ w = "function" ∧
          ∃ rest', nextSymbol? rest = some ("(", rest') := by
        rw [← nextWord?_skip, hc] at hw
        exact h.opens.word _ hclosed w rest hw
      obtain ⟨d, hd, hdrest⟩ := word?_of_some hw
      rw [hd]
      dsimp only
      split
      case h_6 =>
        obtain ⟨-, rest', hparen⟩ := (hword (by decide)).resolve_left (by decide)
        rw [peekIdentifier_of_symbol (Grammar.sigil_ofDepth ..) (hdrest ▸ hparen)]
        exact hread
      all_goals first
        | exact hread
        | exact absurd (hword (by decide)) (by simp)

theorem Begins.expression (h : Legible Strength.assignment x t) : Begins (x ++ [';']) where
  first := by
    obtain ⟨d, cs, rfl, hd⟩ := h.opens.first
    have hnone : ∀ e ∈ [' ', '\t', '\r', '\n', '/', '#', '\x7d', '?', '<'],
        ¬(opensTerm e = true ∨ e ∈ signs) := List.all_iff_forall_prop.mp (by decide)
    have hne (e) (he : e ∈ [' ', '\t', '\r', '\n', '/', '#', '\x7d', '?', '<']) : d ≠ e := by
      rintro rfl
      exact hnone d he (hd.imp_right And.right)
    refine ⟨d, cs ++ [';'], rfl, (startsToken_or d).resolve_right fun hmem => ?_, fun hmem => ?_⟩
    · exact hne d (List.mem_append_left ['\x7d', '?', '<'] hmem) rfl
    · exact hne d (List.mem_append_right [' ', '\t', '\r', '\n', '/', '#'] hmem) rfl
  noElse more rest := by
    have hword := h.opens.word (';' :: more) (.of_head (by decide))
    rw [List.append_assoc]
    constructor
    · exact fun hw => absurd (hword "else" rest hw (by decide)) (by simp)
    · exact fun hw => absurd (hword "elseif" rest hw (by decide)) (by simp)

theorem Tells.expression (h : Legible Strength.assignment x t) : Tells (x ++ [';']) (some t) := by
  intro bound depth c more hc _ hdepth hbound
  have hrest : c.skip.rest = x ++ ';' :: more := by simpa using hc
  have hskip : c.skip.skip.rest = x ++ ';' :: more := by rw [skip_skip, hrest]
  simp only [List.length_append, List.length_cons, List.length_nil] at hdepth hbound
  obtain ⟨d, cs, rfl, hd⟩ := h.opens.first_notMem
  have hne : d ≠ ';' ∧ d ≠ '\x7b' := by
    constructor <;> rintro rfl <;> exact hd (by decide)
  have hfirst : c.skip.rest = d :: (cs ++ ';' :: more) := hrest
  refine anyStatement_of_plain hfirst hne ?_
  exact plainStatement_takes h hskip (by omega)
    (by simp only [List.length_append, List.length_cons] at hbound ⊢; omega) _

/-! ### Statements with a keyword in front -/

/-- Texts that are empty or read as an expression, as something is optional. -/
structure OptionalText (x : List Char) (o : Option Tree) : Prop where
  none : o = none → x = []
  some : ∀ t ∈ o, Legible Strength.assignment x t

theorem OptionalText.skip (h : OptionalText x o) {stop : Char} (hstop : startsToken stop = true)
    (hc : c.rest = x ++ stop :: more ∨ c.rest = ' ' :: (x ++ stop :: more)) :
    c.skip.rest = x ++ stop :: more := by
  cases o with
  | none =>
      rw [h.none rfl] at hc ⊢
      exact skip_of_startsToken (x := [stop]) ⟨stop, [], rfl, hstop⟩ hc
  | some t =>
      obtain ⟨d, cs, hx, hd⟩ := (h.some t rfl).opens.first_notMem
      exact skip_of_startsToken ⟨d, cs, hx, startsToken_of_notMem hd⟩ hc

/-- An optional expression with the symbol that stops it. -/
theorem OptionalText.clause {stop : Char} {symbol : String} {α : Type} {f : Option Tree → PlainReader α}
    {left : List Char} {Q : α → Prop} (h : OptionalText x o) (hstop : stop ∈ [')', ']', ';'])
    (hsymbol : symbol = String.singleton stop)
    (hc : c.rest = x ++ stop :: more ∨ c.rest = ' ' :: (x ++ stop :: more)) (hdepth : x.length < depth)
    (hbound : x.length + more.length + 1 < bound)
    (hf : ∀ v d, d.rest = more → Tree.sameSlots [v] [o] = true → (f v).Takes d left Q) :
    ((Grammar.ofDepth defaultSigil bound depth).optionalExpression symbol >>=
      fun v => Reader.expectSymbol symbol >>= fun _ => f v).Takes c left Q := by
  subst hsymbol
  have hstarts : startsToken stop = true := by
    simp only [List.mem_cons, List.not_mem_nil, or_false] at hstop
    rcases hstop with rfl | rfl | rfl <;> rfl
  have hroom : (x ++ stop :: more).length < bound := by
    simp only [List.length_append, List.length_cons]
    omega
  obtain ⟨rest, hrest, hread⟩ := optionalExpression_takes hstop h.none h.some (h.skip hstarts hc)
    hdepth hroom
  refine hread.bind fun v d hd hv => ?_
  obtain ⟨e, he, herest⟩ := Reader.expectSymbol_ok (hd ▸ hrest)
  exact .step he (hf v e herest hv)

theorem Tells.ret (h : OptionalText x o) :
    Tells ("return".toList ++ (o.elim [] fun _ => [' ']) ++ x ++ [';'])
      (some (.fixed .ret [o] line)) := by
  intro bound depth c more hc _ hdepth hbound
  simp only [List.length_append, List.length_cons, List.length_nil] at hdepth hbound
  have hrest : c.skip.rest =
      "return".toList ++ ((o.elim [] fun _ => [' ']) ++ (x ++ ';' :: more)) := by
    simpa using hc
  have hclosed : Closed ((o.elim [] fun _ => [' ']) ++ (x ++ ';' :: more)) := by
    cases o with
    | none =>
        rw [h.none rfl]
        exact .of_head (by decide)
    | some t => exact .of_head (by decide)
  refine anyStatement_of_keyword (Grammar.ofDepth defaultSigil bound depth).returnStatement
    (fun c d line hw _ => ?_) rfl hrest hclosed fun d line hd => ?_
  · rw [Grammar.plainStatement, Reader.get_bind_apply, hw]
    rfl
  have hgap : d.rest = x ++ ';' :: more ∨ d.rest = ' ' :: (x ++ ';' :: more) := by
    cases o with
    | none => exact .inl hd
    | some t => exact .inr hd
  have hstop : ';' ∈ [')', ']', ';'] := by decide
  exact h.clause hstop rfl hgap (by omega) (by omega) fun v e he hv =>
    .pure he (Tree.same_fixed.trans hv)

theorem Tells.echo (h : Legible Strength.assignment x t) :
    Tells ("echo ".toList ++ x ++ [';']) (some (.fixed .echo [some t] line)) := by
  intro bound depth c more hc _ hdepth hbound
  simp only [List.length_append, List.length_cons, List.length_nil] at hdepth hbound
  have hrest : c.skip.rest = "echo".toList ++ ' ' :: (x ++ ';' :: more) := by simpa using hc
  refine anyStatement_of_keyword (Grammar.ofDepth defaultSigil bound depth).echoStatement
    (fun c d line hw _ => ?_) rfl hrest (.of_head (by decide)) fun d line hd => ?_
  · rw [Grammar.plainStatement, Reader.get_bind_apply, hw]
    rfl
  have hsemicolon : nextSymbol? (';' :: more) = some (";", more) := rfl
  refine .bind (h.expression (h.opens.skip_blank hd) (.of_closer (by decide) Nat.one_pos) (by omega)
    (by simp only [List.length_append, List.length_cons]; omega)) fun v e he hv => ?_
  obtain ⟨f, hf, hfrest⟩ := Reader.expectSymbol_ok (he ▸ hsemicolon)
  exact .step hf (.pure hfrest (Tree.same_fixed.trans (by simp [Tree.sameSlots, hv])))

theorem Tells.nothing : Tells [';'] none := by
  intro bound depth c more hc _ _ _
  have hskip : nextSymbol? c.skip.rest = some (";", more) := by
    rw [hc]
    rfl
  obtain ⟨d, hd, hdrest⟩ := Reader.acceptSymbol_ok hskip
  exact .here (.step hd (.pure hdrest rfl))

/-! ### Statements one after the other -/

/-- Texts of items with separators in front of each and in front of what stops them. -/
inductive Lines (Item : List Char → Tree → Prop) (stop : List Char) : List Char → List Tree → Prop
  | stop {gap : List Char} (hgap : ∀ d ∈ gap, isSeparator d = true) : Lines Item stop (gap ++ stop) []
  | cons {gap x y : List Char} {t : Tree} {ts : List Tree} (hgap : ∀ d ∈ gap, isSeparator d = true)
    (hx : Item x t) (h : Lines Item stop y ts) : Lines Item stop (gap ++ (x ++ y)) (t :: ts)

/-- Texts of statements that stand on lines of their own. -/
structure StatementText (x : List Char) (t : Tree) : Prop where
  begins : Begins x
  tells : Tells x (some t)

theorem StatementText.expression (h : Legible Strength.assignment x t) :
    StatementText (x ++ [';']) t :=
  ⟨.expression h, .expression h⟩

theorem StatementText.ret (h : OptionalText x o) :
    StatementText ("return".toList ++ (o.elim [] fun _ => [' ']) ++ x ++ [';'])
      (.fixed .ret [o] line) := by
  refine ⟨?_, .ret h⟩
  have hword : isWord "return" = true := by decide
  have hclosed : Closed ((o.elim [] fun _ => [' ']) ++ x ++ [';']) := by
    cases o with
    | none =>
        rw [h.none rfl]
        exact .of_head (by decide)
    | some t => exact .of_head (by decide)
  simpa using Begins.of_word hword hclosed (by decide) (by simp)

theorem StatementText.echo (h : Legible Strength.assignment x t) :
    StatementText ("echo ".toList ++ x ++ [';']) (.fixed .echo [some t] line) := by
  refine ⟨?_, .echo h⟩
  have hword : isWord "echo" = true := by decide
  have hbegins : Begins ("echo".toList ++ ' ' :: (x ++ [';'])) :=
    .of_word hword (.of_head (by decide)) (by decide) (List.cons_ne_nil _ _)
  simpa using hbegins

variable {stop text : List Char} {ts : List Tree} {g : TreeGrammar} {Item : List Char → Tree → Prop}

theorem skipped_gap {gap : List Char} (h : ∀ d ∈ gap, isSeparator d = true) (cs : List Char) :
    skipped (gap ++ cs) = skipped cs := by
  induction gap with
  | nil => rfl
  | cons d gap ih =>
      rw [List.cons_append, skipped_separator (h d List.mem_cons_self),
        ih fun e he => h e (List.mem_cons_of_mem _ he)]

theorem NoElse.gap {gap : List Char} (hgap : ∀ d ∈ gap, isSeparator d = true) (h : NoElse cs) :
    NoElse (gap ++ cs) := by
  have hnext : nextWord? (gap ++ cs) = nextWord? cs := by
    rw [nextWord?, nextWord?, skipped_gap hgap]
  intro rest
  rw [hnext]
  exact h rest

theorem Lines.noElse (h : Lines StatementText stop text ts) (hstop : NoElse stop) : NoElse text := by
  cases h with
  | stop hgap => exact hstop.gap hgap
  | cons hgap hx _ => exact (hx.begins.noElse _).gap hgap

theorem Lines.length_le (h : Lines Item stop text ts) : stop.length ≤ text.length := by
  induction h with
  | stop => simp
  | cons _ _ _ ih =>
      simp only [List.length_append]
      omega

/-- A loop that reads statements up to a place where it stops. -/
structure ReadsLines (g : TreeGrammar) (loop : Nat → PlainReader (List Tree)) (stop : List Char) : Prop where
  stop : ∀ fuel c, c.skip.rest = stop → (loop (fuel + 1)).Takes c stop (· = [])
  step : ∀ fuel c left Q, (∃ d cs, c.skip.rest = d :: cs ∧ d ∉ ['\x7d', '?', '<']) →
    (g.statement >>= fun first => loop fuel >>= fun rest =>
      pure (first.toList ++ rest)).Takes c.skip left Q → (loop (fuel + 1)).Takes c left Q

/-- Such a loop reads statements one after the other. -/
theorem Lines.takes {loop : Nat → PlainReader (List Tree)} {fuel : Nat}
    (h : Lines StatementText stop text ts)
    (hloop : ReadsLines (Grammar.ofDepth defaultSigil bound depth) loop stop) (hstop : NoElse stop)
    (hstops : skipped stop = stop) (hc : c.skip.rest = skipped text)
    (hdepth : text.length < depth + stop.length) (hbound : text.length < bound)
    (hfuel : text.length < fuel) :
    (loop fuel).Takes c stop fun us => Tree.sameSlots (us.map some) (ts.map some) = true := by
  induction h generalizing fuel c with
  | stop hgap =>
      obtain ⟨fuel, rfl⟩ := Nat.exists_eq_succ_of_ne_zero (Nat.ne_zero_of_lt hfuel)
      have hend : c.skip.rest = stop := by rw [hc, skipped_gap hgap, hstops]
      exact (hloop.stop fuel c hend).mono fun us hus => by rw [hus]; rfl
  | @cons gap x y t ts hgap hitem hy ih =>
      obtain ⟨fuel, rfl⟩ := Nat.exists_eq_succ_of_ne_zero (Nat.ne_zero_of_lt hfuel)
      obtain ⟨d, cs, hx, hd, hne⟩ := hitem.begins.first
      have hlen := hy.length_le
      have hxpos : 0 < x.length := by
        rw [hx]
        exact Nat.succ_pos _
      simp only [List.length_append] at hdepth hbound hfuel
      have hskip : c.skip.rest = x ++ y := by
        rw [hc, skipped_gap hgap, hx]
        exact skipped_eq_self hd
      have hfirst : c.skip.rest = d :: (cs ++ y) := by rw [hskip, hx]; rfl
      have hroom : (x ++ y).length < bound := by
        rw [List.length_append]
        omega
      have hshort : x.length < depth := by omega
      refine hloop.step fuel c stop _ ⟨d, _, hfirst, hne⟩ (.bind (hitem.tells.statement
        (by rw [skip_skip, hskip]) (fun _ => hy.noElse hstop) hshort hroom) fun v e he hsame => ?_)
      refine .bind (ih (by rw [rest_skip, he]) (by omega) (by omega) (by omega))
        fun us f hf hsames => .pure hf ?_
      cases v with
      | none => cases hsame
      | some v =>
          simp only [Tree.sameSlots, Bool.and_true] at hsame
          simpa [Tree.sameSlots, hsame] using hsames

/-! ### Blocks -/

structure Braced (x : List Char) (t : Tree) : Prop where
  first : ∃ cs, x = '\x7b' :: cs
  takes : ∀ ⦃bound depth : Nat⦄ ⦃c : Cursor⦄ ⦃more : List Char⦄, c.skip.rest = x ++ more →
    x.length ≤ depth → (x ++ more).length < bound →
    (Grammar.ofDepth defaultSigil bound depth).block.Takes c more (·.same t = true)

theorem readsLines_block (g : TreeGrammar) (more : List Char) :
    ReadsLines g g.blockStatementsWithin ('\x7d' :: more) where
  stop fuel c hc := by
    refine .modify (.get ?_)
    rw [hc]
    exact .pure hc rfl
  step fuel c left Q hfirst h := by
    obtain ⟨d, cs, hc, hd⟩ := hfirst
    refine .modify (.get ?_)
    rw [hc]
    split
    · rename_i heq
      cases heq
    · rename_i heq
      rw [(List.cons.inj heq).1] at hd
      exact absurd (by decide) hd
    · exact h

theorem Braced.of_lines (h : ∀ more, Lines StatementText ('\x7d' :: more) (x ++ '\x7d' :: more) ts) :
    Braced ('\x7b' :: x ++ ['\x7d']) (.list .stmtList ts line) := by
  refine ⟨⟨_, rfl⟩, ?_⟩
  intro bound depth c more hc hdepth hbound
  have hrest : c.skip.rest = '\x7b' :: (x ++ '\x7d' :: more) := by simpa using hc
  have hopen : nextSymbol? c.skip.rest = some ("\x7b", x ++ '\x7d' :: more) := by
    rw [hrest]
    rfl
  simp only [List.length_append, List.length_cons, List.length_nil] at hdepth hbound
  obtain ⟨d, hd, hdrest⟩ := Reader.expectSymbol_ok hopen
  have hstop : NoElse ('\x7d' :: more) := .of_none (nextWord?_of_not_start rfl (by decide))
  have hloop := readsLines_block (Grammar.ofDepth defaultSigil bound depth) more
  have hroom : (x ++ '\x7d' :: more).length < bound := by
    simp only [List.length_append, List.length_cons]
    omega
  refine .here (.step hd ?_)
  rw [Grammar.bound_ofDepth]
  refine .bind ((h more).takes hloop hstop (skipped_eq_self rfl) (by rw [rest_skip, hdrest])
    (by simp only [List.length_append, List.length_cons]; omega) hroom hroom) fun us e he hus => ?_
  have hclose : nextSymbol? e.rest = some ("\x7d", more) := by
    rw [he]
    rfl
  obtain ⟨f, hf, hfrest⟩ := Reader.expectSymbol_ok hclose
  exact .step hf (.pure hfrest (Tree.same_list.trans hus))

theorem Braced.statement (h : Braced x t) : StatementText x t := by
  obtain ⟨cs, rfl⟩ := h.first
  refine ⟨.of_first rfl (by decide) (by decide), ?_⟩
  intro bound depth c more hc _ hdepth hbound
  have hskip : c.skip.skip.rest = '\x7b' :: cs ++ more := by rw [skip_skip, hc]
  have hno : ∀ rest, nextSymbol? c.skip.rest ≠ some (";", rest) := by
    intro rest hs
    have hhead := head_nextSymbol? hskip hs
    simp at hhead
  refine .here (.step (Reader.acceptSymbol_not hno) ?_)
  rw [if_neg Bool.false_ne_true]
  refine .get ?_
  rw [hc]
  exact some_takes (h.takes hskip hdepth hbound)

/-! ### Programs -/

theorem readsLines_program (g : TreeGrammar) : ReadsLines g g.programStatementsWithin [] where
  stop fuel c hc := by
    refine .modify (.get ?_)
    rw [hc]
    exact .pure hc rfl
  step fuel c left Q hfirst h := by
    obtain ⟨d, cs, hc, hd⟩ := hfirst
    refine .modify (.get ?_)
    rw [hc]
    split
    · rename_i heq
      cases heq
    · rename_i heq
      rw [(List.cons.inj heq).1] at hd
      exact absurd (by decide) hd
    · exact h

theorem optionalTag_absent {tag : String} (h : afterStart tag.toList c.skip.rest = none) :
    (Grammar.optionalTag tag : PlainReader Unit) c = .ok ((), c.skip) := by
  have hpast : c.skip.past? tag.toList = none := by
    rw [← past?_eq, Option.map_eq_none_iff] at h
    exact h
  rw [Grammar.optionalTag, Reader.get_bind_apply, hpast]
  rfl

/-- A text begins with none of the tags that surround programs. -/
theorem Lines.untagged (h : Lines StatementText [] text ts) :
    afterStart "<?php".toList (skipped text) = none := by
  cases h with
  | stop hgap =>
      rw [skipped_gap hgap]
      rfl
  | cons hgap hx _ =>
      obtain ⟨d, cs, rfl, hd, hne⟩ := hx.begins.first
      rw [skipped_gap hgap, List.cons_append, skipped_eq_self hd]
      have hfirst : '<' ≠ d := by
        rintro rfl
        exact hne (by decide)
      exact if_neg hfirst

/-- Statements one after the other are read as the program of these. -/
theorem Lines.readProgram (h : Lines StatementText [] text ts) :
    ∃ us, readProgram defaultSigil text = .ok (.list .stmtList us 1) ∧
      Tree.sameSlots (us.map some) (ts.map some) = true := by
  have htag : afterStart "<?php".toList (Cursor.start text).skip.rest = none := by
    rw [rest_skip]
    exact h.untagged
  have hprogram : (Grammar.ofLength defaultSigil text.length).program.Takes (Cursor.start text) []
      fun t => ∃ us, t = .list .stmtList us 1 ∧
        Tree.sameSlots (us.map some) (ts.map some) = true := by
    refine .step (optionalTag_absent htag) ?_
    rw [Grammar.ofLength, Grammar.bound_ofDepth]
    refine .bind (h.takes (readsLines_program _) (.of_none rfl) rfl (by rw [skip_skip, rest_skip]; rfl)
      (by rw [List.length_nil]; omega) (Nat.lt_succ_self _) (Nat.lt_succ_self _))
      fun us d hd hus => ?_
    have hend : d.skip.rest = [] := by
      rw [rest_skip, hd]
      rfl
    refine .step (optionalTag_absent (by rw [hend]; rfl)) (.modify (.get ?_))
    rw [skip_skip, hend]
    exact .pure hend ⟨us, rfl, hus⟩
  obtain ⟨t, d, hread, -, us, rfl, hus⟩ := hprogram
  exact ⟨us, by rw [SnippetRewrite.readProgram, hread]; rfl, hus⟩

end SnippetRewrite
