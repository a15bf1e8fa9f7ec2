import SnippetRewrite.Proofs.Parse.Term

/-!
Texts of variables, arrays, new objects, and what may follow an expression directly: calls, members,
indices and steps. A variable or a property is read as the name of a function or a method when an
opening parenthesis follows it, so what follows those is restricted.
-/

namespace SnippetRewrite

variable {x y more : List Char} {a t : Tree} {c : Cursor} {bound depth line : Nat} {text : String}
  {g : TreeGrammar} {xs : List (List Char)} {ts : List Tree}

/-! ### Names -/

theorem worded_of_reference {Q : Tree → Prop} {left : List Char}
    (h : IsVariableName defaultSigil text) (hc : c.skip.rest = text.toList ++ more)
    (hmore : Closed more) (harray : text = "array" → ∀ rest, nextSymbol? more ≠ some ("(", rest))
    (href : (g.reference line).Takes c left Q) : (g.worded line).Takes c left Q := by
  refine .get ?_
  rcases h.identifier.word_or with ⟨cs, hcs⟩ | ⟨-, hnext⟩
  · have hnone : nextWord? c.rest = none := by
      rw [← nextWord?_skip, hc, hcs]
      exact nextWord?_of_not_start rfl (by decide)
    rw [word?_of_none hnone]
    exact href
  · have hword : nextWord? c.rest = some (text, more) := by
      rw [← nextWord?_skip, hc, hnext more hmore]
    obtain ⟨d, hd, hdrest⟩ := word?_of_some hword
    rw [hd]
    dsimp only
    rw [h.notLiteral]
    dsimp only
    split
    · exact absurd (by decide) h.notKeyword
    · exact absurd (by decide) h.notKeyword
    · rw [pastSymbol?_of_ne (hdrest ▸ harray rfl)]
      exact href
    · exact href

theorem reference_takes {called : Bool} (hsigil : g.sigil = defaultSigil)
    (h : IsName defaultSigil text) (hc : c.skip.rest = text.toList ++ more) (hmore : Closed more)
    (hpeek : ∀ d : Cursor, d.rest = more →
      (Reader.peekSymbol "(" : PlainReader Bool) d = .ok (called, d)) :
    (g.reference line).Takes c more (· = if called then .name text line else .var text line) := by
  obtain ⟨name, d, hread, hd, hname⟩ := Reader.identifier_takes h hc hmore
  have hid : (Reader.identifier g.sigil : PlainReader String) c = .ok (text, d) := by
    rw [hsigil, hread, hname]
  refine .get ?_
  rw [hid]
  refine .set (.step (hpeek d hd) ?_)
  cases called with
  | true => exact .pure hd rfl
  | false => exact .pure hd rfl

/-- A name by itself is a variable, and a name in front of an opening parenthesis is that of a
function. -/
theorem primary_reference {called : Bool} (hsigil : g.sigil = defaultSigil)
    (h : IsVariableName defaultSigil text) (hc : c.skip.rest = text.toList ++ more)
    (hmore : Closed more) (harray : text = "array" → ∀ rest, nextSymbol? more ≠ some ("(", rest))
    (hpeek : ∀ d : Cursor, d.rest = more →
      (Reader.peekSymbol "(" : PlainReader Bool) d = .ok (called, d)) :
    g.primary.Takes c more
      fun t => ∃ line, t = if called then .name text line else .var text line := by
  have hskip : c.skip.skip.rest = text.toList ++ more := by rw [skip_skip, hc]
  have hread : (g.worded c.skip.position.line).Takes c.skip more
      fun t => ∃ line, t = if called then .name text line else .var text line :=
    (worded_of_reference h hskip hmore harray
      (reference_takes hsigil h.toIsName hskip hmore hpeek)).mono fun t ht => ⟨_, ht⟩
  rcases h.identifier.word_or with ⟨cs, hcs⟩ | ⟨⟨d, cs, hcs, hd⟩, -⟩
  · rw [hcs] at hc
    exact primary_of_worded hc (.inr rfl) hread
  · rw [hcs] at hc
    exact primary_of_worded hc (.inl hd) hread

theorem Legible.var (h : IsVariableName defaultSigil text) {nameLine : Nat} :
    Legible Strength.postfixed text.toList (.fixed .var [some (.name text nameLine)] line) := by
  refine .of_primary (.of_name h.toIsName) ?_
  intro bound depth c more hc hmore hcall _ _
  have hno := hcall rfl
  have hpeek (d : Cursor) (hd : d.rest = more) :
      (Reader.peekSymbol "(" : PlainReader Bool) d = .ok (false, d) :=
    Reader.peekSymbol_not (hd ▸ hno)
  refine (primary_reference (Grammar.sigil_ofDepth ..) h hc hmore (fun _ => hno) hpeek).mono ?_
  rintro _ ⟨line', rfl⟩
  exact Tree.same_fixed.trans (by simp [Tree.sameSlots])

/-! ### Arrays and new objects -/

theorem Legible.array (h : LegibleItems xs ts) :
    Legible Strength.postfixed ('[' :: commaSeparated xs ++ [']']) (.list .array ts line) := by
  refine .of_primary (.of_first rfl (by decide)) ?_
  intro bound depth c more hc _ _ hdepth hbound
  have hrest : c.skip.rest = '[' :: (commaSeparated xs ++ ']' :: more) := by simpa using hc
  simp only [List.length_append, List.length_cons, List.length_nil] at hdepth hbound
  refine .here (.get ?_)
  rw [hrest]
  dsimp only
  rw [if_neg (by decide), if_neg (by decide)]
  have hopen : nextSymbol? c.skip.rest = some ("[", commaSeparated xs ++ ']' :: more) := by
    rw [hrest]
    rfl
  refine .step (Reader.acceptSymbol_not (nextSymbol?_ne hopen (by decide))) ?_
  rw [if_neg Bool.false_ne_true]
  obtain ⟨d, hd, hdrest⟩ := Reader.acceptSymbol_ok hopen
  refine .step hd ?_
  rw [if_pos rfl]
  have hitems := items_takes (.inr rfl) h.itemTexts hdrest (Nat.lt_of_lt_of_le (by omega) hdepth)
    (Nat.lt_of_le_of_lt (by omega) hbound)
  exact hitems.bind fun us e he hus => .pure he (by simpa using hus)

/-- The word for arrays in front of a parenthesis. -/
theorem Legible.arrayWord (h : LegibleItems xs ts) :
    Legible Strength.postfixed ("array".toList ++ '(' :: commaSeparated xs ++ [')'])
      (.list .array ts line) := by
  have htail : ∀ d ∈ ['r', 'r', 'a', 'y'], isWordChar d = true :=
    List.all_iff_forall_prop.mp (by decide)
  have hnext (cs : List Char) :
      nextWord? ("array".toList ++ '(' :: cs) = some ("array", '(' :: cs) :=
    nextWord?_identifier (by decide) htail (.of_head (by decide))
  have hopens : Opens Strength.postfixed ("array".toList ++ '(' :: commaSeparated xs ++ [')']) := by
    refine ⟨⟨'a', _, rfl, .inl (by decide)⟩, fun more _ w rest hw hkeyword => ?_⟩
    simp only [List.append_assoc, List.cons_append, hnext] at hw
    cases hw
    exact absurd hkeyword (by decide)
  refine .of_primary hopens ?_
  intro bound depth c more hc _ _ hdepth hbound
  have hrest : c.skip.rest = "array".toList ++ '(' :: (commaSeparated xs ++ ')' :: more) := by
    simpa using hc
  simp only [List.length_append, List.length_cons, List.length_nil] at hdepth hbound
  refine primary_of_worded hrest (.inl (by decide)) (.get ?_)
  obtain ⟨d, hd, hdrest⟩ := word?_of_some (hrest ▸ hnext (commaSeparated xs ++ ')' :: more))
  have hparen : nextSymbol? d.rest = some ("(", commaSeparated xs ++ ')' :: more) := by
    rw [hdrest]
    rfl
  obtain ⟨e, he, herest⟩ := pastSymbol?_of_some hparen
  rw [hd]
  dsimp only
  rw [show literalWord? "array" = none from by decide]
  dsimp only
  rw [he]
  have hitems := items_takes (.inl rfl) h.itemTexts herest (Nat.lt_of_lt_of_le (by omega) hdepth)
    (Nat.lt_of_le_of_lt (by omega) hbound)
  exact .set (hitems.bind fun us f hf hus => .pure hf (by simpa using hus))

theorem skip_blank_name (h : IsName defaultSigil text) (hc : c.rest = ' ' :: (text.toList ++ more)) :
    c.skip.rest = text.toList ++ more := by
  have hopens : Opens Strength.postfixed text.toList := .of_name h
  exact hopens.skip_blank hc

theorem Legible.new {className : String} {nameLine argumentLine : Nat}
    (hname : IsName defaultSigil className)
    (h : LegibleItems xs ts) :
    Legible Strength.postfixed
      ("new ".toList ++ className.toList ++ '(' :: commaSeparated xs ++ [')'])
      (.fixed .new [some (.name className nameLine), some (.list .argList ts argumentLine)]
        line) := by
  have hstart : isWordStart 'n' = true := by decide
  have htail : ∀ d ∈ ['e', 'w'], isWordChar d = true := List.all_iff_forall_prop.mp (by decide)
  have hnext (cs : List Char) : nextWord? ("new ".toList ++ cs) = some ("new", ' ' :: cs) :=
    nextWord?_identifier hstart htail (.of_head (by decide))
  have hopens : Opens Strength.postfixed
      ("new ".toList ++ className.toList ++ '(' :: commaSeparated xs ++ [')']) := by
    refine ⟨⟨'n', _, rfl, .inl (by decide)⟩, fun more _ w rest hw _ => ?_⟩
    simp only [List.append_assoc, hnext] at hw
    cases hw
    exact .inl rfl
  refine .of_primary hopens ?_
  intro bound depth c more hc _ _ hdepth hbound
  have hrest : c.skip.rest = "new ".toList ++
      (className.toList ++ '(' :: (commaSeparated xs ++ ')' :: more)) := by
    simpa using hc
  simp only [List.length_append, List.length_cons, List.length_nil] at hdepth hbound
  have hword : nextWord? c.skip.rest = some ("new",
      ' ' :: (className.toList ++ '(' :: (commaSeparated xs ++ ')' :: more))) := by
    rw [hrest, hnext]
  refine primary_of_worded hrest (.inl (by decide)) (.get ?_)
  obtain ⟨d, hd, hdrest⟩ := word?_of_some hword
  rw [hd]
  refine .set (.bind (Reader.nameLeaf_takes (Grammar.sigil_ofDepth ..) hname (skip_blank_name hname hdrest)
    (.of_head (by decide))) ?_)
  rintro _ e he ⟨nameLine', rfl⟩
  have hparen : nextSymbol? e.rest = some ("(", commaSeparated xs ++ ')' :: more) := by
    rw [he]
    rfl
  obtain ⟨f, hf, hfrest⟩ := Reader.acceptSymbol_ok hparen
  refine .step hf ?_
  dsimp only
  rw [if_pos rfl]
  refine .bind (arguments_takes h hfrest (by omega) (by omega) _ argumentLine) fun v k hk hv => ?_
  exact .pure hk (by simpa [Tree.sameSlots] using hv)

/-! ### Suffixes -/

/-- One turn of the loop over suffixes. -/
theorem suffixesWithin_step {symbol : String} {left : Tree} {rest : List Char} {fuel : Nat}
    {Q : Tree → Prop} (hs : nextSymbol? c.rest = some (symbol, rest))
    (hsuffix : ∀ d : Cursor, d.rest = rest →
      ∃ r, g.suffix? symbol left left.line = some r ∧ r.Takes d more Q) :
    ∃ v d, Q v ∧ d.rest = more ∧
      g.suffixesWithin (fuel + 1) left c = g.suffixesWithin fuel v d := by
  obtain ⟨d, hd, hdrest⟩ := symbol?_of_some hs
  obtain ⟨r, hr, v, e, hv, he, hQ⟩ := hsuffix d hdrest
  refine ⟨v, e, hQ, he, ?_⟩
  rw [Grammar.suffixesWithin, Reader.get_bind_apply, hd]
  dsimp only
  rw [Reader.lineOf_tree, pure_bind, hr]
  exact Reader.bind_ok hv

theorem nextSymbol?_suffix {symbol : String} (h : symbol ∈ suffixSymbols) (cs : List Char) :
    nextSymbol? (symbol.toList ++ cs) = some (symbol, cs) ∧ Closed (symbol.toList ++ cs) := by
  simp only [suffixSymbols, List.mem_cons, List.not_mem_nil, or_false] at h
  rcases h with rfl | rfl | rfl | rfl | rfl
  all_goals exact ⟨rfl, .of_head (by decide)⟩

/-- What a suffix makes of the expression in front of it is read as that. -/
theorem Legible.suffixed {symbol : String} (hsymbol : symbol ∈ suffixSymbols)
    (ha : Legible Strength.postfixed x a) (hcall : a.isReference = true → symbol ≠ "(")
    (h : ∀ ⦃bound depth : Nat⦄ ⦃c : Cursor⦄ ⦃more : List Char⦄ ⦃left : Tree⦄,
      left.same a = true → c.rest = y ++ more → Closed more →
      (t.isReference = true → ∀ rest, nextSymbol? more ≠ some ("(", rest)) →
      y.length < depth → y.length + more.length < bound →
      ∃ r, (Grammar.ofDepth defaultSigil bound depth).suffix? symbol left left.line = some r ∧
        r.Takes c more (·.same t = true)) :
    Legible Strength.postfixed (x ++ symbol.toList ++ y) t := by
  have hnonempty : ∀ s ∈ suffixSymbols, s.toList ≠ [] := by decide
  have hnext (cs : List Char) := nextSymbol?_suffix hsymbol (y ++ cs)
  rw [List.append_assoc]
  refine ha.joined (.inr rfl) (List.append_ne_nil_of_left_ne_nil (hnonempty symbol hsymbol) y)
    (fun cs => ?_) (fun href cs => ?_) ?_
  · rw [List.append_assoc]
    exact .of_closed (hnext cs).2
  · rw [List.append_assoc]
    exact nextSymbol?_ne (hnext cs).1 (hcall href)
  intro bound depth fuel c more left hsame hc hends hreference hdepth hbound
  simp only [List.length_append] at hdepth hbound
  rw [List.append_assoc] at hc
  exact suffixesWithin_step (hc ▸ (hnext more).1) fun d hd =>
    h hsame hd hends.closed hreference (by omega) (by omega)

/-- A call behind what is called. -/
theorem call_takes {left callee : Tree} (hsame : left.same callee = true) (h : LegibleItems xs ts)
    (hc : c.rest = commaSeparated xs ++ ')' :: more) (hdepth : (commaSeparated xs).length < depth)
    (hbound : (commaSeparated xs).length + more.length + 1 < bound) (line argumentLine : Nat) :
    ∃ r, (Grammar.ofDepth defaultSigil bound depth).suffix? "(" left left.line = some r ∧
      r.Takes c more
        (·.same (.fixed .call [some callee, some (.list .argList ts argumentLine)] line) = true) :=
  ⟨_, rfl, (arguments_takes h hc hdepth hbound _ argumentLine).bind fun v d hd hv =>
    .pure hd (by simpa [Tree.sameSlots, hsame] using hv)⟩

theorem Legible.call {argumentLine : Nat} (ha : Legible Strength.postfixed x a)
    (hreference : a.isReference = false) (h : LegibleItems xs ts) :
    Legible Strength.postfixed (x ++ '(' :: commaSeparated xs ++ [')'])
      (.fixed .call [some a, some (.list .argList ts argumentLine)] line) := by
  have hsuffixed : Legible Strength.postfixed (x ++ "(".toList ++ (commaSeparated xs ++ [')']))
      (.fixed .call [some a, some (.list .argList ts argumentLine)] line) := by
    refine .suffixed (by decide) ha (fun href => by simp [hreference] at href) ?_
    intro bound depth c more left hsame hc _ _ hdepth hbound
    simp only [List.length_append, List.length_cons, List.length_nil] at hdepth hbound
    exact call_takes hsame h (by simpa using hc) (by omega) (by omega) line argumentLine
  simpa using hsuffixed

/-- A name in front of an opening parenthesis is that of the function that is called. -/
theorem Legible.callName {nameLine argumentLine : Nat} (hname : IsVariableName defaultSigil text)
    (harray : text ≠ "array") (h : LegibleItems xs ts) :
    Legible Strength.postfixed (text.toList ++ '(' :: commaSeparated xs ++ [')'])
      (.fixed .call [some (.name text nameLine), some (.list .argList ts argumentLine)] line) := by
  have hopens : Opens Strength.postfixed (text.toList ++ '(' :: commaSeparated xs ++ [')']) := by
    rw [List.append_assoc]
    exact (Opens.of_name hname.toIsName).append (.of_head (by decide)) (List.cons_ne_nil _ _)
  refine .of_joins hopens le_rfl ?_
  intro bound depth c more hc hends _ hdepth hbound
  have hrest : c.skip.rest = text.toList ++ '(' :: (commaSeparated xs ++ ')' :: more) := by
    simpa using hc
  have hparen : nextSymbol? ('(' :: (commaSeparated xs ++ ')' :: more)) =
      some ("(", commaSeparated xs ++ ')' :: more) := rfl
  have hpeek (d : Cursor) (hd : d.rest = '(' :: (commaSeparated xs ++ ')' :: more)) :
      (Reader.peekSymbol "(" : PlainReader Bool) d = .ok (true, d) :=
    Reader.peekSymbol_ok (hd ▸ hparen)
  obtain ⟨_, d, hread, hd, nameLine', rfl⟩ := primary_reference (Grammar.sigil_ofDepth _ bound depth) hname
    hrest (.of_head (by decide)) (fun heq => absurd heq harray) hpeek
  simp only [List.length_append, List.length_cons, List.length_nil] at hdepth hbound
  obtain ⟨bound, rfl⟩ : ∃ k, bound = k + 1 := ⟨bound - 1, by omega⟩
  have hsame : (Tree.name text nameLine').same (.name text nameLine) = true := Tree.same_name
  have hsuffix (e : Cursor) (he : e.rest = commaSeparated xs ++ ')' :: more) :=
    call_takes hsame h he (Nat.lt_of_lt_of_le (by omega) hdepth)
      (Nat.lt_of_le_of_lt (by omega) hbound) line argumentLine
  obtain ⟨v, e, hv, he, hstep⟩ := suffixesWithin_step (hd ▸ hparen) hsuffix
  refine ⟨v, e, bound, hv, he, by omega, ?_⟩
  rw [Grammar.atStrength_eq_loop (.inr rfl)]
  refine (Reader.bind_ok hread).trans ?_
  rw [Grammar.bound_ofDepth]
  exact hstep

/-! ### Members, indices and steps -/

theorem Legible.prop {member : String} {nameLine : Nat} (ha : Legible Strength.postfixed x a)
    (hmember : IsName defaultSigil member) :
    Legible Strength.postfixed (x ++ '-' :: '>' :: member.toList)
      (.fixed .prop [some a, some (.name member nameLine)] line) := by
  have hsuffixed : Legible Strength.postfixed (x ++ "->".toList ++ member.toList)
      (.fixed .prop [some a, some (.name member nameLine)] line) := by
    refine .suffixed (by decide) ha (fun _ => by decide) ?_
    intro bound depth c more left hsame hc hmore hreference _ _
    have hopens : Opens Strength.postfixed member.toList := .of_name hmember
    refine ⟨_, rfl, .bind (Reader.nameLeaf_takes (Grammar.sigil_ofDepth ..) hmember (hopens.skip hc) hmore)
      ?_⟩
    rintro _ d hd ⟨nameLine', rfl⟩
    refine .step (Reader.acceptSymbol_not (hd ▸ hreference rfl)) (.pure hd ?_)
    simp [Tree.sameSlots, hsame]
  simpa using hsuffixed

theorem Legible.methodCall {member : String} {nameLine argumentLine : Nat}
    (ha : Legible Strength.postfixed x a) (hmember : IsName defaultSigil member)
    (h : LegibleItems xs ts) :
    Legible Strength.postfixed (x ++ '-' :: '>' :: member.toList ++ '(' :: commaSeparated xs ++ [')'])
      (.fixed .methodCall [some a, some (.name member nameLine),
        some (.list .argList ts argumentLine)] line) := by
  have hsuffixed : Legible Strength.postfixed
      (x ++ "->".toList ++ (member.toList ++ '(' :: commaSeparated xs ++ [')']))
      (.fixed .methodCall [some a, some (.name member nameLine),
        some (.list .argList ts argumentLine)] line) := by
    refine .suffixed (by decide) ha (fun _ => by decide) ?_
    intro bound depth c more left hsame hc _ _ hdepth hbound
    simp only [List.length_append, List.length_cons, List.length_nil] at hdepth hbound
    have hrest : c.rest = member.toList ++ '(' :: (commaSeparated xs ++ ')' :: more) := by
      simpa using hc
    have hopens : Opens Strength.postfixed member.toList := .of_name hmember
    refine ⟨_, rfl, .bind (Reader.nameLeaf_takes (Grammar.sigil_ofDepth ..) hmember (hopens.skip hrest)
      (.of_head (by decide))) ?_⟩
    rintro _ d hd ⟨nameLine', rfl⟩
    have hparen : nextSymbol? d.rest = some ("(", commaSeparated xs ++ ')' :: more) := by
      rw [hd]
      rfl
    obtain ⟨e, he, herest⟩ := Reader.acceptSymbol_ok hparen
    refine .step he ?_
    rw [if_pos rfl]
    refine .bind (arguments_takes h herest (by omega) (by omega) _ argumentLine) fun v k hk hv => ?_
    exact .pure hk (by simpa [Tree.sameSlots, hsame] using hv)
  simpa using hsuffixed

/-- An expression, or none, in front of the symbol that stops it. -/
theorem optionalExpression_takes {stop : Char} (hstop : stop ∈ [')', ']', ';']) {o : Option Tree}
    (hnone : o = none → y = []) (hsome : ∀ t ∈ o, Legible Strength.assignment y t)
    (hc : c.skip.rest = y ++ stop :: more) (hdepth : y.length < depth)
    (hbound : (y ++ stop :: more).length < bound) :
    ∃ left, nextSymbol? left = some (String.singleton stop, more) ∧
      ((Grammar.ofDepth defaultSigil bound depth).optionalExpression (String.singleton stop)).Takes c
        left fun v => Tree.sameSlots [v] [o] = true := by
  have hnext : nextSymbol? (stop :: more) = some (String.singleton stop, more) := by
    simp only [List.mem_cons, List.not_mem_nil, or_false] at hstop
    rcases hstop with rfl | rfl | rfl <;> rfl
  cases o with
  | none =>
      rw [hnone rfl] at hc
      have hclose : nextSymbol? c.rest = some (String.singleton stop, more) := by
        rw [← nextSymbol?_skip, hc]
        exact hnext
      exact ⟨c.rest, hclose, .step (Reader.peekSymbol_ok hclose) (.pure rfl rfl)⟩
  | some t =>
      have ht := hsome t rfl
      have hends : stop ∈ [')', ']', ';', ','] ∧ stop ∈ neverOpening := by
        simp only [List.mem_cons, List.not_mem_nil, or_false] at hstop
        rcases hstop with rfl | rfl | rfl <;> decide
      have hno : ∀ rest, nextSymbol? c.rest ≠ some (String.singleton stop, rest) :=
        ht.opens.not_symbol hc ⟨stop, hends.2, by simp⟩
      refine ⟨stop :: more, hnext, .step (Reader.peekSymbol_not hno) ?_⟩
      rw [if_neg Bool.false_ne_true, ← bind_pure_comp]
      exact (ht.expression hc (.of_closer hends.1 Nat.one_pos) hdepth hbound).bind
        fun v d hd hv => .pure hd (by simp [Tree.sameSlots, hv])

theorem Legible.dim {index : Option Tree} (ha : Legible Strength.postfixed x a)
    (hnone : index = none → y = []) (hsome : ∀ t ∈ index, Legible Strength.assignment y t) :
    Legible Strength.postfixed (x ++ '[' :: y ++ [']']) (.fixed .dim [some a, index] line) := by
  have hsuffixed : Legible Strength.postfixed (x ++ "[".toList ++ (y ++ [']']))
      (.fixed .dim [some a, index] line) := by
    refine .suffixed (by decide) ha (fun _ => by decide) ?_
    intro bound depth c more left hsame hc _ _ hdepth hbound
    simp only [List.length_append, List.length_cons, List.length_nil] at hdepth hbound
    have hrest : c.rest = y ++ ']' :: more := by simpa using hc
    have hskip : c.skip.rest = y ++ ']' :: more := by
      cases index with
      | none =>
          rw [hnone rfl] at hrest ⊢
          rw [skip_eq_self hrest rfl]
          exact hrest
      | some t => exact (hsome t rfl).opens.skip hrest
    have hroom : (y ++ ']' :: more).length < bound := by
      simp only [List.length_append, List.length_cons]
      omega
    obtain ⟨close, hclose, hindex⟩ := optionalExpression_takes (by decide) hnone hsome hskip
      (by omega : y.length < depth) hroom
    refine ⟨_, rfl, hindex.bind fun o d hd ho => ?_⟩
    obtain ⟨e, he, herest⟩ := Reader.expectSymbol_ok (hd ▸ hclose)
    exact .step he (.pure herest (by simpa [Tree.sameSlots, hsame] using ho))
  simpa using hsuffixed

/-- Steps behind their operand. -/
theorem Legible.step {symbol : String} {kind : FixedKind} (ha : Legible Strength.postfixed x a)
    (h : symbol = "++" ∧ kind = .postInc ∨ symbol = "--" ∧ kind = .postDec) :
    Legible Strength.postfixed (x ++ symbol.toList) (.fixed kind [some a] line) := by
  have hsuffixed : Legible Strength.postfixed (x ++ symbol.toList ++ [])
      (.fixed kind [some a] line) := by
    rcases h with ⟨rfl, rfl⟩ | ⟨rfl, rfl⟩
    all_goals
      refine .suffixed (by decide) ha (fun _ => by decide) ?_
      intro bound depth c more left hsame hc _ _ _ _
      exact ⟨_, rfl, .pure hc (by simp [Tree.sameSlots, hsame])⟩
  simpa using hsuffixed

end SnippetRewrite
