import SnippetRewrite.Proofs.Parse.Chain

/-!
Texts of operations. Operators of one strength are read in a loop and associate to the left; the
power, operators in front of their operand, choices and assignments hand what stands on their right
to a reader of their own strength or a looser one.
-/

namespace SnippetRewrite

variable {x y z more : List Char} {a b t : Tree} {c : Cursor} {line : Nat} {symbol : String}
  {kind : FixedKind}

/-! ### Operators between their operands -/

theorem nextSymbol?_binary (op : BinaryOp) (cs : List Char) :
    nextSymbol? (' ' :: op.symbol.toList ++ ' ' :: cs) = some (op.symbol, ' ' :: cs) := by
  have hsymbol : op.symbol ∈ symbols := by cases op <;> decide
  exact nextSymbol?_spaced hsymbol (by cases op <;> rfl)

theorem binaryOperator?_symbol {op : BinaryOp} (h : op ≠ .pow) :
    binaryOperator? op.strength op.symbol = some op := by
  simp [binaryOperator?, BinaryOp.ofSymbol?_symbol, h]

theorem isLoop_strength {op : BinaryOp} (h : op ≠ .pow) : Grammar.IsLoop op.strength := by
  obtain ⟨hlow, hhigh⟩ := op.strength_le h
  exact .inl ⟨hlow, Nat.le_succ_of_le hhigh⟩

/-- One turn of the loop over binary operators. -/
theorem binaryTailWithin_step {operand : PlainReader Tree} {op : BinaryOp} {left : Tree} {fuel ℓ : Nat}
    {rest : List Char} {Q : Tree → Prop} (hs : nextSymbol? c.rest = some (symbol, rest))
    (hop : binaryOperator? ℓ symbol = some op)
    (hoperand : ∀ d : Cursor, d.rest = rest → operand.Takes d more Q) :
    ∃ v d, Q v ∧ d.rest = more ∧ Grammar.binaryTailWithin operand ℓ (fuel + 1) left c =
      Grammar.binaryTailWithin operand ℓ fuel
        (.fixed (.binary op) [some left, some v] left.line) d := by
  obtain ⟨d, hd, hdrest⟩ := symbol?_of_some hs
  obtain ⟨v, e, hv, he, hQ⟩ := hoperand d hdrest
  refine ⟨v, e, hQ, he, ?_⟩
  rw [Grammar.binaryTailWithin, Reader.get_bind_apply, hd]
  dsimp only
  rw [hop]
  dsimp only
  rw [Reader.set_bind_apply]
  exact Reader.bind_ok hv

theorem Legible.binary {op : BinaryOp} (h : op ≠ .pow) (ha : Legible op.strength x a)
    (hb : Legible (op.strength + 1) y b) :
    Legible op.strength (x ++ ' ' :: op.symbol.toList ++ ' ' :: y)
      (.fixed (.binary op) [some a, some b] line) := by
  have hnext (cs : List Char) : nextSymbol? (' ' :: op.symbol.toList ++ ' ' :: y ++ cs) =
      some (op.symbol, ' ' :: (y ++ cs)) := by
    rw [List.append_assoc]
    exact nextSymbol?_binary op (y ++ cs)
  have hloop (g : TreeGrammar) : g.loop op.strength =
      Grammar.binaryTailWithin (g.atStrength (op.strength + 1)) op.strength := by
    have hlt : op.strength < Strength.instanceTest := Nat.lt_succ_of_le (op.strength_le h).2
    have hne : op.strength ≠ Strength.postfixed := (hlt.trans (by decide)).ne
    funext fuel left
    rw [Grammar.loop, if_neg hne, if_neg hlt.ne]
  rw [List.append_assoc]
  refine ha.joined (isLoop_strength h) (List.cons_ne_nil _ _) (fun cs => ?_) (fun _ cs => ?_) ?_
  · exact .of_symbol (.of_head (by decide)) (hnext cs)
      (by rw [symbolStrength_symbol]; exact Nat.lt_succ_self _)
  · exact nextSymbol?_ne (hnext cs) (by cases op <;> decide)
  intro bound depth fuel c more left hsame hc hends _ hdepth hbound
  simp only [List.length_append, List.length_cons] at hdepth hbound
  have hroom : (y ++ more).length < bound := by
    rw [List.length_append]
    omega
  have hshort : y.length ≤ depth := by omega
  obtain ⟨v, d, hv, hd, hstep⟩ := binaryTailWithin_step (hc ▸ hnext more)
    (binaryOperator?_symbol h) fun d hd => hb.reads (hb.opens.skip_blank hd) hends hshort hroom
  refine ⟨.fixed (.binary op) [some left, some v] left.line, d, ?_, hd, ?_⟩
  · simp [Tree.sameSlots, hsame, hv]
  · rw [hloop]
    exact hstep

theorem nextWord?_instanceof (cs : List Char) :
    nextWord? (" instanceof ".toList ++ cs) = some ("instanceof", ' ' :: cs) := by
  have hstart : isWordStart 'i' = true := by decide
  have htail : ∀ d ∈ "nstanceof".toList, isWordChar d = true :=
    List.all_iff_forall_prop.mp (by decide)
  have hclosed : Closed (' ' :: cs) := .of_head (by decide)
  have hblank : nextWord? (" instanceof ".toList ++ cs) =
      nextWord? ("instanceof".toList ++ ' ' :: cs) := by
    have hskip : skipped (' ' :: ("instanceof".toList ++ ' ' :: cs)) = _ := skipped_separator rfl _
    rw [nextWord?, nextWord?, ← hskip]
    rfl
  rw [hblank]
  exact nextWord?_identifier hstart htail hclosed

theorem Legible.instanceTest (ha : Legible Strength.instanceTest x a)
    (hb : Legible Strength.unary y b) :
    Legible Strength.instanceTest (x ++ " instanceof ".toList ++ y)
      (.fixed .instanceTest [some a, some b] line) := by
  have hnext (cs : List Char) : nextWord? (" instanceof ".toList ++ y ++ cs) =
      some ("instanceof", ' ' :: (y ++ cs)) := by
    rw [List.append_assoc, nextWord?_instanceof]
  have hsymbol (cs : List Char) : nextSymbol? (" instanceof ".toList ++ y ++ cs) = none := by
    cases hs : nextSymbol? (" instanceof ".toList ++ y ++ cs) with
    | none => rfl
    | some r =>
        have hword := hnext cs
        rw [nextWord?_of_symbol hs] at hword
        cases hword
  rw [List.append_assoc]
  refine ha.joined (by decide) (by simp) (fun cs => ⟨.of_head (by decide), fun s rest hs => ?_, fun _ _ => by decide⟩) (fun _ cs => ?_) ?_
  · rw [hsymbol] at hs
    cases hs
  · rw [hsymbol]
    exact fun _ h => nomatch h
  intro bound depth fuel c more left hsame hc hends _ hdepth hbound
  rw [List.length_append] at hdepth hbound
  have hroom : (y ++ more).length < bound := by
    rw [List.length_append]
    omega
  have hshort : y.length ≤ depth := by omega
  obtain ⟨d, hd, hdrest⟩ := Reader.acceptWord_ok (hc ▸ hnext more)
  obtain ⟨v, e, hread, he, hv⟩ := hb.reads (hb.opens.skip_blank hdrest) hends hshort hroom
  refine ⟨.fixed .instanceTest [some left, some v] left.line, e, ?_, he, ?_⟩
  · simp [Tree.sameSlots, hsame, hv]
  · refine (Reader.bind_ok hd).trans ?_
    rw [if_pos rfl]
    exact Reader.bind_ok hread

/-! ### The power and operators in front of their operand -/

theorem Legible.power (ha : Legible Strength.postfixed x a) (hb : Legible Strength.unary y b) :
    Legible Strength.power (x ++ ' ' :: '*' :: '*' :: ' ' :: y)
      (.fixed (.binary .pow) [some a, some b] line) := by
  have hopens : Opens Strength.postfixed (x ++ ' ' :: '*' :: '*' :: ' ' :: y) :=
    ha.opens.append (.of_head (by decide)) (List.cons_ne_nil _ _)
  refine .of_reads (hopens.mono (by decide)) ?_ (by decide)
  intro bound depth c more hc hends hdepth hbound
  have hrest : c.skip.rest = x ++ ' ' :: '*' :: '*' :: ' ' :: (y ++ more) := by simpa using hc
  have hnext : nextSymbol? (' ' :: '*' :: '*' :: ' ' :: (y ++ more)) =
    some ("**", ' ' :: (y ++ more)) := rfl
  simp only [List.length_append, List.length_cons] at hdepth hbound
  refine .bind (ha.reads hrest (.of_symbol (.of_head (by decide)) hnext (by decide)) (by omega)
    (by simp only [List.length_append, List.length_cons]; omega)) fun v d hd hv => ?_
  obtain ⟨e, he, herest⟩ := Reader.acceptSymbol_ok (hd ▸ hnext)
  refine .step he ?_
  rw [if_pos rfl]
  refine .bind (hb.operand (hb.opens.skip_blank herest) hends.unary (by omega)
    (by simp only [List.length_append]; omega)) fun w f hf hw => .pure hf ?_
  simp [Tree.sameSlots, hv, hw]

/-- Symbols of the operators that stand in front of their operand. -/
def leadingSymbols : List String := ["!", "-", "+", "~", "++", "--"]

theorem mem_leadingSymbols (h : leadingOperator? symbol = some kind) : symbol ∈ leadingSymbols := by
  unfold leadingOperator? at h
  split at h
  all_goals first
    | decide
    | cases h

/-- An operator and the operand behind it, with a blank between them where the two would make
another symbol. -/
theorem toList_prefixed {ℓ : Nat} (h : symbol ∈ leadingSymbols) (hy : Opens ℓ y) :
    ∃ z, (prefixed symbol (String.ofList y)).toList = symbol.toList ++ z ∧ (z = ' ' :: y ∨ z = y) ∧
      ∀ more, symbolAt? (symbol.toList ++ (z ++ more)) = some (symbol, z ++ more) := by
  have hsymbols : ∀ s ∈ leadingSymbols, s ∈ symbols := by decide
  have hlong : ∀ s ∈ leadingSymbols, ∀ e ∈ continuations s,
      e ∈ neverOpening ∨ s.toList.getLast? = some e ∧ (e = '-' ∨ e = '+') := by
    have hall : ∀ s ∈ leadingSymbols, ((continuations s).all fun e =>
        e ∈ neverOpening ∨ s.toList.getLast? = some e ∧ (e = '-' ∨ e = '+')) = true := by
      decide +kernel
    exact fun s hs => List.all_iff_forall_prop.mp (hall s hs)
  have hnonempty : ∀ s ∈ leadingSymbols, s.toList ≠ [] := by decide
  obtain ⟨d, cs, rfl, hd⟩ := hy.first_notMem
  obtain ⟨last, hlast⟩ : ∃ last, symbol.toList.getLast? = some last :=
    ⟨_, List.getLast?_eq_some_getLast (hnonempty symbol h)⟩
  rw [prefixed, hlast, String.toList_ofList, List.head?_cons]
  dsimp only
  split
  · refine ⟨' ' :: d :: cs, by simp [String.toList_append], .inl rfl, fun more => ?_⟩
    exact symbolAt?_append (hsymbols symbol h) (blank_notMem_continuations symbol)
  · rename_i hapart
    refine ⟨d :: cs, by simp [String.toList_append], .inr rfl, fun more => ?_⟩
    refine symbolAt?_append (hsymbols symbol h) fun hmem => ?_
    rcases hlong symbol h d hmem with hnever | ⟨hsame, hsign⟩
    · exact hd hnever
    · have heq : last = d := Option.some.inj (hlast.symm.trans hsame)
      exact hapart ⟨heq, heq ▸ hsign⟩

theorem Opens.leading (h : symbol ∈ leadingSymbols) (z : List Char) :
    Opens Strength.unary (symbol.toList ++ z) := by
  have hfirst : ∀ s ∈ leadingSymbols, ∃ d ∈ signs, ∃ cs, s.toList = d :: cs := by
    intro s hs
    simp only [leadingSymbols, List.mem_cons, List.not_mem_nil, or_false] at hs
    rcases hs with rfl | rfl | rfl | rfl | rfl | rfl
    all_goals exact ⟨_, by decide, _, rfl⟩
  have hstart : ∀ d ∈ signs, startsToken d = true ∧ isWordStart d = false :=
    List.all_iff_forall_prop.mp (by decide)
  obtain ⟨d, hd, cs, hsymbol⟩ := hfirst symbol h
  rw [hsymbol]
  refine ⟨⟨d, cs ++ z, rfl, .inr ⟨le_rfl, hd⟩⟩, fun more _ w rest hw => ?_⟩
  rw [List.cons_append, List.cons_append, nextWord?_of_not_start (hstart d hd).1 (hstart d hd).2] at hw
  cases hw

theorem Legible.leading (h : leadingOperator? symbol = some kind) (ha : Legible Strength.unary y a) :
    Legible Strength.unary (prefixed symbol (String.ofList y)).toList
      (.fixed kind [some a] line) := by
  have hmem := mem_leadingSymbols h
  obtain ⟨z, htext, hz, hnext⟩ := toList_prefixed hmem ha.opens
  rw [htext]
  have hopens := Opens.leading hmem z
  refine .of_reads hopens ?_ (by decide)
  intro bound depth c more hc hends hdepth hbound
  have hsymbol : nextSymbol? c.skip.rest = some (symbol, z ++ more) := by
    rw [nextSymbol?, ← rest_skip, skip_skip, hc, List.append_assoc, hnext]
  obtain ⟨d, hd, hdrest⟩ := symbol?_of_some hsymbol
  have hoperand : d.skip.rest = y ++ more := by
    rcases hz with rfl | rfl
    · exact ha.opens.skip_blank hdrest
    · exact ha.opens.skip hdrest
  have hpos : ∀ s ∈ leadingSymbols, 0 < s.toList.length := by decide
  have hsymbolpos := hpos symbol hmem
  have hzlen : y.length ≤ z.length := by
    rcases hz with rfl | rfl
    · exact Nat.le_succ _
    · exact le_rfl
  simp only [List.length_append] at hdepth hbound
  refine .here (.get ?_)
  rw [hd]
  dsimp only
  rw [h]
  refine .set (.bind (ha.operand hoperand hends (by omega) (by rw [List.length_append]; omega))
    fun v e he hv => .pure he ?_)
  simp [Tree.sameSlots, hv]

/-! ### Assignments and choices -/

theorem Legible.assignment (hkind : assignmentOperator? symbol = some kind)
    (hnext : ∀ cs, nextSymbol? (' ' :: symbol.toList ++ ' ' :: cs) = some (symbol, ' ' :: cs))
    (hstrength : symbolStrength symbol < Strength.conditional)
    (ha : Legible Strength.postfixed x a) (hb : Legible Strength.assignment y b) :
    Legible Strength.assignment (x ++ ' ' :: symbol.toList ++ ' ' :: y)
      (.fixed kind [some a, some b] line) := by
  have hopens : Opens Strength.postfixed (x ++ (' ' :: symbol.toList ++ ' ' :: y)) :=
    ha.opens.append (.of_head (by decide)) (List.cons_ne_nil _ _)
  have hchoice : Legible Strength.conditional x a := ha.loosen (by decide) (by decide) le_rfl
  rw [List.append_assoc]
  refine .of_reads (hopens.mono (by decide)) ?_ (by decide)
  intro bound depth c more hc hends hdepth hbound
  have happend : x ++ (' ' :: symbol.toList ++ ' ' :: y) ++ more =
      x ++ (' ' :: symbol.toList ++ ' ' :: (y ++ more)) := by simp
  rw [happend] at hc hbound
  simp only [List.length_append, List.length_cons] at hdepth
  have hskip : c.skip.skip.rest = x ++ (' ' :: symbol.toList ++ ' ' :: (y ++ more)) := by
    rw [skip_skip, hc]
  have hfollow : Ends Strength.conditional (' ' :: symbol.toList ++ ' ' :: (y ++ more)) :=
    .of_symbol (.of_head (by decide)) (hnext _) hstrength
  refine .here (.bind (hchoice.reads hskip hfollow (by omega) hbound) fun v d hd hv => .get ?_)
  simp only [List.length_append, List.length_cons] at hbound
  obtain ⟨e, he, herest⟩ := symbol?_of_some (hd ▸ hnext _)
  rw [he]
  dsimp only
  rw [hkind]
  refine .set (.bind (hb.expression (hb.opens.skip_blank herest) hends (by omega)
    (by rw [List.length_append]; omega)) fun w f hf hw => .pure hf ?_)
  simp [Tree.sameSlots, hv, hw]

theorem Legible.choice {d : Tree} (ha : Legible Strength.loosestBinary x a)
    (hb : Legible Strength.assignment y b) (hd : Legible Strength.conditional z d) :
    Legible Strength.conditional (x ++ ' ' :: '?' :: ' ' :: y ++ ' ' :: ':' :: ' ' :: z)
      (.fixed .conditional [some a, some b, some d] line) := by
  have hopens : Opens Strength.loosestBinary
      (x ++ (' ' :: '?' :: ' ' :: y ++ ' ' :: ':' :: ' ' :: z)) :=
    ha.opens.append (.of_head (by decide)) (List.cons_ne_nil _ _)
  rw [List.append_assoc]
  refine .of_reads (hopens.mono (by decide)) ?_ (by decide)
  intro bound depth c more hc hends hdepth hbound
  have hcolon : nextSymbol? (' ' :: ':' :: ' ' :: (z ++ more)) = some (":", ' ' :: (z ++ more)) :=
    rfl
  have hquestion (cs : List Char) : nextSymbol? (' ' :: '?' :: ' ' :: cs) = some ("?", ' ' :: cs) :=
    rfl
  have hskip : c.skip.skip.rest =
      x ++ ' ' :: '?' :: ' ' :: (y ++ ' ' :: ':' :: ' ' :: (z ++ more)) := by
    rw [skip_skip, hc]
    simp
  simp only [List.length_append, List.length_cons] at hdepth hbound
  refine .here (.bind (ha.reads hskip (.of_symbol (.of_head (by decide)) (hquestion _) (by decide))
    (by omega) (by simp only [List.length_append, List.length_cons]; omega)) fun v e he hv => ?_)
  obtain ⟨f, hf, hfrest⟩ := Reader.acceptSymbol_ok (he ▸ hquestion _)
  refine .step hf ?_
  rw [if_pos rfl]
  refine .bind (hb.expression (hb.opens.skip_blank hfrest) (.of_symbol (.of_head (by decide)) hcolon
    (by decide)) (by omega) (by simp only [List.length_append, List.length_cons]; omega))
    fun w k hk hw => ?_
  obtain ⟨m, hm, hmrest⟩ := Reader.expectSymbol_ok (hk ▸ hcolon)
  refine .step hm (.bind (hd.conditional (hd.opens.skip_blank hmrest) hends (by omega)
    (by rw [List.length_append]; omega)) fun u n hn hu => .pure hn ?_)
  simp [Tree.sameSlots, hv, hw, hu]

end SnippetRewrite
