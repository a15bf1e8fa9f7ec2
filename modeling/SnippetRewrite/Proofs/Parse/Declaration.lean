import SnippetRewrite.Proofs.Parse.Statement
import SnippetRewrite.Proofs.Syntax.Layout

/-!
Texts of declarations. Functions, closures and methods have a signature in common: parameters, whose
defaults are read without assignments outside parentheses, captured variables, and a return type.
Each part is read up to the symbol or the word with which the next one begins.
-/

namespace SnippetRewrite

variable {x y z more cs : List Char} {t params body : Tree} {uses result o : Option Tree}
  {c : Cursor} {text : String} {bound depth line nameLine : Nat} {xs : List (List Char)}
  {ts : List Tree}

/-! ### Parameters and captured variables -/

theorem identifier_takes {g : TreeGrammar} (hsigil : g.sigil = defaultSigil)
    (h : IsName defaultSigil text) (hc : c.skip.rest = text.toList ++ more) (hmore : Closed more) :
    g.identifier.Takes c more (· = text) := by
  rw [Grammar.identifier, hsigil]
  exact Reader.identifier_takes h hc hmore

theorem IsName.first (h : IsName defaultSigil text) :
    ∃ d cs, text.toList = d :: cs ∧ d ∉ neverOpening := by
  have hopens : Opens Strength.postfixed text.toList := .of_name h
  exact hopens.first_notMem

theorem ItemText.captured (h : IsName defaultSigil text) :
    ItemText Grammar.capturedVariable text.toList (.var text line) where
  first := h.first
  takes bound depth c d more hc hd _ _ := by
    have hends : Ends Strength.assignment (d :: more) := .of_closer hd Nat.one_pos
    have hskip : c.skip.skip.rest = text.toList ++ d :: more := by rw [skip_skip, hc]
    refine .here ((identifier_takes (Grammar.sigil_ofDepth ..) h hskip hends.closed).bind
      fun name e he hname => .pure he ?_)
    rw [hname]
    exact Tree.same_fixed.trans (by simp [Tree.sameSlots])

theorem ItemText.param (h : IsName defaultSigil text) (hnone : o = none → y = [])
    (hsome : ∀ t ∈ o, Legible Strength.conditional y t) :
    ItemText Grammar.param (text.toList ++ (o.elim [] fun _ => " = ".toList) ++ y)
      (.fixed .param [some (.name text nameLine), o] line) where
  first := by
    obtain ⟨d, cs, htext, hd⟩ := h.first
    exact ⟨d, _, by rw [htext, List.append_assoc]; rfl, hd⟩
  takes bound depth c d more hc hd hdepth hbound := by
    have hends : Ends Strength.assignment (d :: more) := .of_closer hd Nat.one_pos
    have hskip : c.skip.skip.rest =
        text.toList ++ ((o.elim [] fun _ => " = ".toList) ++ (y ++ d :: more)) := by
      rw [skip_skip, hc]
      simp
    have hclosed : Closed ((o.elim [] fun _ => " = ".toList) ++ (y ++ d :: more)) := by
      cases o with
      | none =>
          rw [hnone rfl]
          exact hends.closed
      | some t => exact .of_head (by decide)
    simp only [List.length_append, List.length_cons] at hdepth hbound
    refine .here ((identifier_takes (Grammar.sigil_ofDepth ..) h hskip hclosed).bind
      fun name e he hname => ?_)
    subst hname
    refine .step rfl ?_
    cases o with
    | none =>
        rw [hnone rfl] at he
        have hno : ∀ rest, nextSymbol? e.rest ≠ some ("=", rest) := he ▸ hends.not_symbol (by decide)
        refine .step (Reader.acceptSymbol_not hno) ?_
        rw [if_neg Bool.false_ne_true]
        exact .pure he (Tree.same_fixed.trans (by simp [Tree.sameSlots]))
    | some t =>
        have ht := hsome t rfl
        have hequals : nextSymbol? e.rest = some ("=", ' ' :: (y ++ d :: more)) := by
          rw [he]
          rfl
        obtain ⟨f, hf, hfrest⟩ := Reader.acceptSymbol_ok hequals
        refine .step hf ?_
        rw [if_pos rfl]
        refine .bind (some_takes (ht.conditional (ht.opens.skip_blank hfrest)
          (hends.mono (by decide)) (by omega) (by simp only [List.length_append, List.length_cons]; omega)))
          fun v k hk hv => .pure hk (Tree.same_fixed.trans ?_)
        simpa [Tree.sameSlots] using hv

/-! ### Signatures -/

/-- A text is read as a list of captured variables or as none, up to a place where no word begins. -/
def UsesText (x : List Char) (o : Option Tree) : Prop :=
  ∀ ⦃bound depth line : Nat⦄ ⦃c : Cursor⦄ ⦃more : List Char⦄, c.rest = x ++ more →
    nextWord? more = none → x.length < depth → x.length + more.length < bound →
    ((Grammar.ofDepth defaultSigil bound depth).uses line).Takes c more
      fun v => Tree.sameSlots [v] [o] = true

theorem UsesText.absent : UsesText [] none := by
  intro bound depth line c more hc hmore _ _
  have hno : ∀ rest, nextWord? c.rest ≠ some ("use", rest) := by
    intro rest hw
    rw [hc, List.nil_append, hmore] at hw
    cases hw
  refine .step (Reader.acceptWord_not hno) ?_
  rw [if_neg Bool.false_ne_true]
  exact .pure hc rfl

theorem UsesText.written (h : List.Forall₂ (ItemText Grammar.capturedVariable) xs ts) :
    UsesText (" use (".toList ++ commaSeparated xs ++ [')']) (some (.list .closureUses ts line)) := by
  intro bound depth line' c more hc _ hdepth hbound
  have hrest : c.rest = ' ' :: ("use".toList ++ ' ' :: '(' :: (commaSeparated xs ++ ')' :: more)) := by
    simpa using hc
  have huse : " use (".toList.length = 6 := rfl
  simp only [List.length_append, List.length_cons, List.length_nil, huse] at hdepth hbound
  have hword : nextWord? c.rest = some ("use", ' ' :: '(' :: (commaSeparated xs ++ ')' :: more)) := by
    rw [hrest, nextWord?_blank, nextWord?_append rfl (.of_head (by decide))]
  obtain ⟨d, hd, hdrest⟩ := Reader.acceptWord_ok hword
  have hopen : nextSymbol? d.rest = some ("(", commaSeparated xs ++ ')' :: more) := by
    rw [hdrest]
    rfl
  obtain ⟨e, he, herest⟩ := Reader.expectSymbol_ok hopen
  refine .step hd ?_
  rw [if_pos rfl]
  refine .step he (.bind (items_takes (.inl rfl) h herest (by omega) (by omega))
    fun us f hf hus => .pure hf ?_)
  simpa [Tree.sameSlots] using hus

/-- A text is read as a return type or as none, up to a symbol that is no colon. -/
def ResultText (x : List Char) (o : Option Tree) : Prop :=
  ∀ ⦃bound depth : Nat⦄ ⦃c : Cursor⦄ ⦃more : List Char⦄, c.rest = x ++ more → Closed more →
    (∃ symbol rest, nextSymbol? more = some (symbol, rest) ∧ symbol ≠ ":") →
    (Grammar.ofDepth defaultSigil bound depth).resultType.Takes c more
      fun v => Tree.sameSlots [v] [o] = true

theorem ResultText.absent : ResultText [] none := by
  intro bound depth c more hc _ hmore
  obtain ⟨symbol, rest, hsymbol, hne⟩ := hmore
  have hno : ∀ rest, nextSymbol? c.rest ≠ some (":", rest) := hc ▸ nextSymbol?_ne hsymbol hne
  refine .step (Reader.acceptSymbol_not hno) ?_
  rw [if_neg Bool.false_ne_true]
  exact .pure hc rfl

theorem ResultText.written {mark : String} (hmark : mark = "" ∨ mark = "?")
    (h : IsName defaultSigil text) :
    ResultText (": ".toList ++ (mark ++ text).toList) (some (.name (mark ++ text) line)) := by
  intro bound depth c more hc hclosed _
  have hcolon : nextSymbol? c.rest = some (":", ' ' :: ((mark ++ text).toList ++ more)) := by
    rw [hc]
    rfl
  obtain ⟨d, hd, hdrest⟩ := Reader.acceptSymbol_ok hcolon
  refine .step hd ?_
  rw [if_pos rfl]
  have hopens : Opens Strength.postfixed text.toList := .of_name h
  have hread (e : Cursor) (he : e.rest = text.toList ++ more) (line' : Nat) :
      ((Grammar.ofDepth defaultSigil bound depth).identifier >>= fun name =>
        pure (some (.name (mark ++ name) line'))).Takes e more
          fun v => Tree.sameSlots [v] [some (.name (mark ++ text) line)] = true :=
    (identifier_takes (Grammar.sigil_ofDepth ..) h (hopens.skip he) hclosed).bind
      fun name f hf hname => .pure hf (by simp [Tree.sameSlots, hname])
  refine .here ?_
  rcases hmark with rfl | rfl
  · have hskip : d.skip.rest = text.toList ++ more := hopens.skip_blank (by simpa using hdrest)
    have hno : ∀ rest, nextSymbol? d.skip.rest ≠ some ("?", rest) :=
      hopens.not_symbol (by rw [skip_skip, hskip]) ⟨'?', by decide, rfl⟩
    refine .step (Reader.acceptSymbol_not hno) ?_
    exact hread _ hskip _
  · have hquestion : nextSymbol? d.skip.rest = some ("?", text.toList ++ more) := by
      rw [nextSymbol?_skip, hdrest, String.toList_append]
      rfl
    obtain ⟨e, he, herest⟩ := Reader.acceptSymbol_ok hquestion
    exact .step he (hread e herest _)

/-- A text is read as a signature, up to a symbol that is no colon. -/
structure SignatureText (x : List Char) (params : Tree) (uses result : Option Tree) : Prop where
  first : ∃ cs, x = '(' :: cs
  takes : ∀ ⦃bound depth line : Nat⦄ ⦃c : Cursor⦄ ⦃more : List Char⦄, c.skip.rest = x ++ more →
    Closed more → (∃ symbol rest, nextSymbol? more = some (symbol, rest) ∧ symbol ≠ ":") →
    x.length < depth → (x ++ more).length < bound →
    ((Grammar.ofDepth defaultSigil bound depth).signature line).Takes c more fun s =>
      s.params.same params = true ∧ Tree.sameSlots [s.uses] [uses] = true ∧
        Tree.sameSlots [s.result] [result] = true

theorem SignatureText.of_parts (hx : List.Forall₂ (ItemText Grammar.param) xs ts) (hy : UsesText y uses)
    (hz : ResultText z result) (hclosed : z = [] ∨ ∃ cs, z = ':' :: cs) :
    SignatureText ('(' :: commaSeparated xs ++ ')' :: (y ++ z)) (.list .paramList ts line) uses
      result := by
  refine ⟨⟨_, rfl⟩, ?_⟩
  intro bound depth line' c more hc hmore hsymbol hdepth hbound
  have hrest : c.skip.rest = '(' :: (commaSeparated xs ++ ')' :: (y ++ (z ++ more))) := by
    simpa using hc
  simp only [List.length_append, List.length_cons] at hdepth hbound
  have hopen : nextSymbol? c.rest = some ("(", commaSeparated xs ++ ')' :: (y ++ (z ++ more))) := by
    rw [← nextSymbol?_skip, hrest]
    rfl
  obtain ⟨d, hd, hdrest⟩ := Reader.expectSymbol_ok hopen
  have hnoWord : nextWord? (z ++ more) = none := by
    obtain ⟨symbol, rest, hs, -⟩ := hsymbol
    rcases hclosed with rfl | ⟨cs, rfl⟩
    · exact nextWord?_of_symbol hs
    · exact nextWord?_of_not_start rfl (by decide)
  refine .step hd (.bind (items_takes (.inl rfl) hx hdrest (by omega)
    (by simp only [List.length_append]; omega)) fun us e he hus => .step rfl ?_)
  refine .bind (hy he hnoWord (by omega) (by simp only [List.length_append]; omega))
    fun v f hf hv => ?_
  exact (hz hf hmore hsymbol).bind fun w g hg hw => .pure hg ⟨Tree.same_list.trans hus, hv, hw⟩

/-- What is declared with a signature that was read is what was declared. -/
theorem Signature.same_decl {s : Signature Tree} {kind : DeclKind} {name : String} {flags m n : Nat}
    {b : Option Tree} (hs : s.params.same params = true ∧ Tree.sameSlots [s.uses] [uses] = true ∧
      Tree.sameSlots [s.result] [result] = true) (hb : Tree.sameSlots [b] [o] = true) :
    (Tree.node m (.decl kind name flags) (s.slots b)).same
      (.node n (.decl kind name flags) [some params, uses, o, result]) = true := by
  rw [Signature.slots, Tree.same_of_label (by simp [Label.same])]
  refine Tree.sameSlots_cons_iff.mpr ⟨by simp [Tree.sameSlots, hs.1], ?_⟩
  exact Tree.sameSlots_cons_iff.mpr ⟨hs.2.1, Tree.sameSlots_cons_iff.mpr ⟨hb, hs.2.2⟩⟩

/-! ### Closures and functions -/

theorem Braced.follows (h : Braced y body) (more : List Char) : Closed (' ' :: (y ++ more)) ∧
    ∃ symbol rest, nextSymbol? (' ' :: (y ++ more)) = some (symbol, rest) ∧ symbol ≠ ":" := by
  obtain ⟨cs, rfl⟩ := h.first
  exact ⟨.of_head (by decide), _, _, rfl, by decide⟩

theorem Braced.skip (h : Braced y body) (hc : c.rest = ' ' :: (y ++ more)) :
    c.skip.rest = y ++ more := by
  obtain ⟨cs, rfl⟩ := h.first
  exact skip_of_startsToken ⟨_, cs, rfl, rfl⟩ (.inr hc)

theorem SignatureText.skip (h : SignatureText x params uses result)
    (hc : c.rest = x ++ more ∨ c.rest = ' ' :: (x ++ more)) : c.skip.rest = x ++ more := by
  obtain ⟨cs, rfl⟩ := h.first
  exact skip_of_startsToken ⟨'(', cs, rfl, rfl⟩ hc

theorem SignatureText.closed (h : SignatureText x params uses result) (more : List Char) :
    Closed (x ++ more) := by
  obtain ⟨cs, rfl⟩ := h.first
  exact .of_head (by decide)

/-- A signature with a body behind it. -/
theorem SignatureText.block (hx : SignatureText x params uses result) (hy : Braced y body)
    (hc : c.rest = x ++ ' ' :: (y ++ more) ∨ c.rest = ' ' :: (x ++ ' ' :: (y ++ more)))
    (hdepth : x.length + y.length < depth) (hbound : x.length + y.length + more.length + 1 < bound)
    (kind : DeclKind) (name : String) (m n : Nat) :
    ((Grammar.ofDepth defaultSigil bound depth : TreeGrammar).signature m >>= fun s =>
      (Grammar.ofDepth defaultSigil bound depth).block >>= fun b =>
        Nodes.decl kind name 0 (s.slots (some b)) m).Takes c more
      (·.same (.node n (.decl kind name 0) [some params, uses, some body, result]) = true) := by
  obtain ⟨hclosed, hsymbol⟩ := hy.follows more
  refine .bind (hx.takes (hx.skip hc) hclosed hsymbol (by omega)
    (by simp only [List.length_append, List.length_cons]; omega)) fun s e he hs => ?_
  refine .bind (hy.takes (hy.skip he) (by omega) (by rw [List.length_append]; omega))
    fun b f hf hb => .pure hf (Signature.same_decl hs ?_)
  simp [Tree.sameSlots, hb]

/-- A closure is read wherever an expression may stand. -/
theorem Legible.closure (hx : SignatureText x params uses result) (hy : Braced y body) :
    Legible Strength.postfixed ("function ".toList ++ x ++ ' ' :: y)
      (.node line (.decl .closure closureName 0) [some params, uses, some body, result]) := by
  have hnext (cs : List Char) :
      nextWord? ("function ".toList ++ cs) = some ("function", ' ' :: cs) := by
    show nextWord? ("function".toList ++ ' ' :: cs) = _
    exact nextWord?_append rfl (.of_head (by decide))
  have hopens : Opens Strength.postfixed ("function ".toList ++ x ++ ' ' :: y) := by
    refine ⟨⟨'f', _, rfl, .inl (by decide)⟩, fun more _ w rest hw _ => .inr ?_⟩
    obtain ⟨cs, rfl⟩ := hx.first
    simp only [List.append_assoc, hnext] at hw
    cases hw
    exact ⟨rfl, _, rfl⟩
  have hlen : "function ".toList.length = 9 := rfl
  refine .of_primary hopens ?_
  intro bound depth c more hc _ _ hdepth hbound
  have hrest : c.skip.rest = "function ".toList ++ (x ++ ' ' :: (y ++ more)) := by simpa using hc
  simp only [List.length_append, List.length_cons, hlen] at hdepth hbound
  refine primary_of_worded hrest (.inl (by decide)) (.get ?_)
  obtain ⟨d, hd, hdrest⟩ := word?_of_some (hrest ▸ hnext (x ++ ' ' :: (y ++ more)))
  rw [hd]
  dsimp only
  rw [show literalWord? "function" = none from by decide]
  exact .set (hx.block hy (.inr hdrest) (by omega) (by omega) _ _ _ _)

/-- A function is read as a statement. -/
theorem StatementText.function (hname : IsName defaultSigil text)
    (hx : SignatureText x params uses result) (hy : Braced y body) :
    StatementText ("function ".toList ++ text.toList ++ x ++ ' ' :: y)
      (.node line (.decl .function text 0) [some params, uses, some body, result]) := by
  have hword : isWord "function" = true := by decide
  refine ⟨?_, ?_⟩
  · have hbegins : Begins ("function".toList ++ ' ' :: (text.toList ++ x ++ ' ' :: y)) :=
      .of_word hword (.of_head (by decide)) (by decide) (List.cons_ne_nil _ _)
    simpa using hbegins
  intro bound depth c more hc _ hdepth hbound
  have hrest : c.skip.rest =
      "function".toList ++ ' ' :: (text.toList ++ (x ++ ' ' :: (y ++ more))) := by
    simpa using hc
  have hlen : "function ".toList.length = 9 := rfl
  simp only [List.length_append, List.length_cons, hlen] at hdepth hbound
  have hidentifier (d : Cursor) (hd : d.rest = ' ' :: (text.toList ++ (x ++ ' ' :: (y ++ more)))) :
      (Grammar.ofDepth defaultSigil bound depth).identifier.Takes d (x ++ ' ' :: (y ++ more))
        (· = text) :=
    identifier_takes (Grammar.sigil_ofDepth ..) hname (skip_blank_name hname hd) (hx.closed _)
  let g : TreeGrammar := Grammar.ofDepth defaultSigil bound depth
  refine anyStatement_of_keyword g.functionDeclaration (fun c d line hw hd => ?_) hword hrest (.of_head (by decide)) fun d line hd => ?_
  · obtain ⟨v, e, hv, -⟩ := hidentifier d hd
    have hpeek : g.peekIdentifier d = true := by
      rw [Grammar.peekIdentifier]
      exact congrArg Except.isOk hv
    rw [Grammar.plainStatement, Reader.get_bind_apply, hw]
    dsimp only
    rw [hpeek]
    rfl
  · refine .bind (hidentifier d hd) fun name e he hname => ?_
    subst hname
    exact hx.block hy (.inl he) (by omega) (by omega) _ _ _ _

/-! ### Modifiers -/

def modifierChars (modifiers : List (Nat × String)) : List Char :=
  modifiers.flatMap fun m => m.2.toList ++ [' ']

theorem modifierBit?_of_mem : ∀ m ∈ modifierKeywords,
    isWord m.2 = true ∧ modifierBit? m.2 = some m.1 := by decide

variable {modifiers : List (Nat × String)} {word : String} {flags : Nat}

theorem nextWord?_congr {ds : List Char} (h : skipped cs = skipped ds) :
    nextWord? cs = nextWord? ds := by
  rw [nextWord?, nextWord?, h]

/-- Modifiers are read up to a word that is none. -/
theorem modifiersWithin_ok (hmodifiers : ∀ m ∈ modifiers, m ∈ modifierKeywords)
    (hword : nextWord? more = some (word, cs)) (hbit : modifierBit? word = none) {fuel : Nat}
    (hc : c.skip.rest = skipped (modifierChars modifiers ++ more)) (hfuel : modifiers.length < fuel) :
    ∃ d, (Grammar.modifiersWithin fuel flags : PlainReader Nat) c =
        .ok (modifiers.foldl (fun flags m => flags ||| m.1) flags, d) ∧
      d.skip.rest = skipped more := by
  induction modifiers generalizing fuel flags c with
  | nil =>
      obtain ⟨fuel, rfl⟩ := Nat.exists_eq_succ_of_ne_zero (Nat.ne_zero_of_lt hfuel)
      have hnext : nextWord? c.rest = some (word, cs) :=
        (nextWord?_congr ((rest_skip c).symm.trans hc)).trans hword
      obtain ⟨d, hd, -⟩ := word?_of_some hnext
      refine ⟨c, ?_, hc⟩
      rw [Grammar.modifiersWithin, Reader.get_bind_apply, hd]
      dsimp only
      rw [hbit]
      rfl
  | cons m modifiers ih =>
      obtain ⟨fuel, rfl⟩ := Nat.exists_eq_succ_of_ne_zero (Nat.ne_zero_of_lt hfuel)
      obtain ⟨hisWord, hm⟩ := modifierBit?_of_mem m (hmodifiers m List.mem_cons_self)
      have hnext : nextWord? c.rest =
          some (m.2, ' ' :: (modifierChars modifiers ++ more)) := by
        rw [nextWord?_congr ((rest_skip c).symm.trans hc), modifierChars, List.flatMap_cons,
          List.append_assoc, List.append_assoc]
        exact nextWord?_append hisWord (.of_head (by decide))
      obtain ⟨d, hd, hdrest⟩ := word?_of_some hnext
      obtain ⟨e, he, herest⟩ := ih (fun m hm => hmodifiers m (List.mem_cons_of_mem _ hm))
        (by rw [rest_skip, hdrest, skipped_separator rfl] : d.skip.rest = _)
        (Nat.lt_of_succ_lt_succ hfuel)
      refine ⟨e, ?_, herest⟩
      rw [Grammar.modifiersWithin, Reader.get_bind_apply, hd]
      dsimp only
      rw [hm]
      exact he

def modifiersOf (flags : Nat) : List (Nat × String) :=
  modifierKeywords.filter fun m => flags &&& m.1 ≠ 0

theorem mem_of_modifiersOf : ∀ m ∈ modifiersOf flags, m ∈ modifierKeywords :=
  fun _ hm => (List.mem_filter.mp hm).1

theorem toList_modifiersText (flags : Nat) :
    (modifiersText flags).toList = modifierChars (modifiersOf flags) := by
  rw [modifiersText, String.toList_join, List.flatMap_map, modifierChars, modifiersOf]
  exact congrArg (List.flatMap · _) (funext fun m => String.toList_append)

/-- Each set of flags is that of its modifiers. -/
theorem foldl_modifiersOf : ∀ flags < 64,
    (modifiersOf flags).foldl (fun flags m => flags ||| m.1) 0 = flags := by
  decide

/-- The modifiers of a set of flags are read up to a word that is none. -/
theorem modifiers_ok (hflags : flags < 64) (hword : nextWord? more = some (word, cs))
    (hbit : modifierBit? word = none) (hc : c.skip.rest = (modifiersText flags).toList ++ more)
    (hbound : (modifiersText flags).toList.length < bound) :
    ∃ d, (Grammar.ofDepth defaultSigil bound depth : TreeGrammar).modifiers c = .ok (flags, d) ∧
      nextWord? d.rest = some (word, cs) := by
  have hlen : (modifiersOf flags).length ≤ (modifierChars (modifiersOf flags)).length := by
    induction modifiersOf flags with
    | nil => exact Nat.zero_le _
    | cons m modifiers ih =>
        rw [modifierChars, List.flatMap_cons, ← modifierChars]
        simp only [List.length_cons, List.length_append, List.length_nil]
        omega
  rw [toList_modifiersText] at hc hbound
  have hskip : c.skip.rest = skipped (modifierChars (modifiersOf flags) ++ more) := by
    rw [← hc, ← rest_skip, skip_skip]
  have hread : ∃ d, (Grammar.modifiersWithin bound 0 : PlainReader Nat) c =
      .ok ((modifiersOf flags).foldl (fun flags m => flags ||| m.1) 0, d) ∧ d.skip.rest = skipped more :=
    modifiersWithin_ok mem_of_modifiersOf hword hbit hskip (hlen.trans_lt hbound)
  rw [foldl_modifiersOf flags hflags] at hread
  rw [Grammar.modifiers, Grammar.bound_ofDepth]
  obtain ⟨d, hd, hdrest⟩ := hread
  exact ⟨d, hd, (nextWord?_congr ((rest_skip d).symm.trans hdrest)).trans hword⟩

/-- A word between blanks comes next. -/
theorem nextWord?_between (word : String) (hword : isWord word = true) (cs : List Char) :
    nextWord? (' ' :: (word.toList ++ ' ' :: cs)) = some (word, ' ' :: cs) := by
  rw [nextWord?_blank, nextWord?_append hword (.of_head (by decide))]

/-- What a declaration begins with: modifiers, a keyword and its name. -/
theorem declared_takes {β : Type} {k : Nat → String → PlainReader β} {r : Nat → PlainReader β}
    {left : List Char} {Q : β → Prop} (hflags : flags < 64) (hname : IsName defaultSigil text)
    (hword : isWord word = true) (hbit : modifierBit? word = none)
    (hc : c.skip.rest = (modifiersText flags).toList ++ (word.toList ++ ' ' :: (text.toList ++ more)))
    (hmore : Closed more) (hbound : (modifiersText flags).toList.length < bound)
    (hk : ∀ d, d.rest = more → (k flags text).Takes d left Q) :
    ((Grammar.ofDepth defaultSigil bound depth : TreeGrammar).modifiers >>= fun v =>
      Reader.acceptWord word >>= fun found =>
        if found then (Grammar.ofDepth defaultSigil bound depth : TreeGrammar).identifier >>= k v
        else r v).Takes c left Q := by
  have hnext : nextWord? (word.toList ++ ' ' :: (text.toList ++ more)) =
      some (word, ' ' :: (text.toList ++ more)) := nextWord?_append hword (.of_head (by decide))
  obtain ⟨d, hd, hdword⟩ := modifiers_ok hflags hnext hbit hc hbound
  obtain ⟨e, he, herest⟩ := Reader.acceptWord_ok hdword
  refine .step hd (.step he ?_)
  rw [if_pos rfl]
  refine .bind (identifier_takes (Grammar.sigil_ofDepth ..) hname (skip_blank_name hname herest)
    hmore) fun name f hf heq => ?_
  subst heq
  exact hk f hf

/-! ### Methods -/

/-- A text is read as the body of a method, or as the semicolon in its place. -/
inductive BodyText : List Char → Option Tree → Prop
  | absent : BodyText [';'] none
  | written {y : List Char} {body : Tree} (h : Braced y body) : BodyText (' ' :: y) (some body)

theorem BodyText.follows (h : BodyText z o) (more : List Char) : Closed (z ++ more) ∧
    ∃ symbol rest, nextSymbol? (z ++ more) = some (symbol, rest) ∧ symbol ≠ ":" := by
  cases h with
  | absent => exact ⟨.of_head (by decide), _, _, rfl, by decide⟩
  | written h => exact h.follows more

structure MethodText (x : List Char) (t : Tree) : Prop where
  first : ∃ d cs, x = d :: cs ∧ startsToken d = true ∧ d ≠ '\x7d'
  takes : ∀ ⦃bound depth : Nat⦄ ⦃c : Cursor⦄ ⦃more : List Char⦄, c.skip.rest = x ++ more →
    x.length < depth → (x ++ more).length < bound →
    (Grammar.ofDepth defaultSigil bound depth).method.Takes c more (·.same t = true)

/-- What begins with a word, with or without modifiers in front of it. -/
theorem first_modified (flags : Nat) {word : String} (hword : isWord word = true) (cs : List Char) :
    ∃ d ds, (modifiersText flags).toList ++ (word.toList ++ cs) = d :: ds ∧
      isWordStart d = true := by
  have hstarts {word : String} (hword : isWord word = true) (cs : List Char) :
      ∃ d ds, word.toList ++ cs = d :: ds ∧ isWordStart d = true := by
    obtain ⟨hfirst, -⟩ := (Bool.and_eq_true _ _).mp hword
    cases hlist : word.toList with
    | nil =>
        rw [hlist] at hfirst
        cases hfirst
    | cons d tail =>
        rw [hlist] at hfirst
        exact ⟨d, tail ++ cs, rfl, by simpa using hfirst⟩
  rw [toList_modifiersText]
  cases hmodifiers : modifiersOf flags with
  | nil => exact hstarts hword cs
  | cons m modifiers =>
      have hmem : m ∈ modifiersOf flags := hmodifiers ▸ List.mem_cons_self
      rw [modifierChars, List.flatMap_cons, List.append_assoc, List.append_assoc]
      exact hstarts (modifierBit?_of_mem m (mem_of_modifiersOf m hmem)).1 _

theorem MethodText.of_parts (hflags : flags < 64) (hname : IsName defaultSigil text)
    (hx : SignatureText x params uses result) (hz : BodyText z o) :
    MethodText ((modifiersText flags).toList ++ "function ".toList ++ text.toList ++ x ++ z)
      (.node line (.decl .method text flags) [some params, uses, o, result]) := by
  have hword : isWord "function" = true := by decide
  have happend (cs : List Char) : (modifiersText flags).toList ++ "function ".toList ++ text.toList ++
      x ++ z ++ cs = (modifiersText flags).toList ++
        ("function".toList ++ ' ' :: (text.toList ++ (x ++ (z ++ cs)))) := by
    simp
  constructor
  · obtain ⟨d, ds, htext, hd⟩ := first_modified flags hword (' ' :: (text.toList ++ (x ++ (z ++ []))))
    rw [← happend, List.append_nil] at htext
    refine ⟨d, ds, htext, startsToken_of_opensTerm (by simp [opensTerm, hd]), ?_⟩
    rintro rfl
    exact absurd hd (by decide)
  intro bound depth c more hc hdepth hbound
  rw [happend] at hc hbound
  have hlen : "function ".toList.length = 9 ∧ "function".toList.length = 8 := ⟨rfl, rfl⟩
  simp only [List.length_append, List.length_cons, hlen.1, hlen.2] at hdepth hbound
  have hskip : c.skip.skip.rest = (modifiersText flags).toList ++
      ("function".toList ++ ' ' :: (text.toList ++ (x ++ (z ++ more)))) := by
    rw [skip_skip, hc]
  refine .here (declared_takes hflags hname hword (by decide) hskip (hx.closed _) (by omega)
    fun f hf => ?_)
  obtain ⟨hclosed, hsymbol⟩ := hz.follows more
  refine .bind (hx.takes (hx.skip (.inl hf)) hclosed hsymbol (by omega)
    (by simp only [List.length_append]; omega)) fun s g hg hs => ?_
  cases hz with
  | absent =>
      have hsemicolon : nextSymbol? g.rest = some (";", more) := by
        rw [hg]
        rfl
      obtain ⟨k, hk, hkrest⟩ := Reader.acceptSymbol_ok hsemicolon
      refine .step hk ?_
      rw [if_pos rfl]
      exact .pure hkrest (Signature.same_decl hs rfl)
  | @written y body hy =>
      have hno : ∀ rest, nextSymbol? g.rest ≠ some (";", rest) := by
        obtain ⟨cs, rfl⟩ := hy.first
        have hbrace : nextSymbol? g.rest = some ("\x7b", cs ++ more) := by
          rw [hg]
          rfl
        exact nextSymbol?_ne hbrace (by decide)
      simp only [List.length_cons] at hdepth hbound
      refine .step (Reader.acceptSymbol_not hno) ?_
      rw [if_neg Bool.false_ne_true]
      exact (some_takes (hy.takes (hy.skip hg) (by omega)
        (by rw [List.length_append]; omega))).bind fun b k hk hb => .pure hk (Signature.same_decl hs hb)

/-- Methods are read up to the brace that closes a class. -/
theorem Lines.methods {lines : List Char} {fuel : Nat}
    (h : Lines MethodText ('\x7d' :: more) lines ts) (hc : c.skip.rest = skipped lines)
    (hdepth : lines.length < depth + more.length + 1) (hbound : lines.length < bound)
    (hfuel : lines.length < fuel) :
    ((Grammar.ofDepth defaultSigil bound depth).methodsWithin fuel).Takes c more
      fun us => Tree.sameSlots (us.map some) (ts.map some) = true := by
  induction h generalizing fuel c with
  | stop hgap =>
      obtain ⟨fuel, rfl⟩ := Nat.exists_eq_succ_of_ne_zero (Nat.ne_zero_of_lt hfuel)
      have hbrace : skipped ('\x7d' :: more) = '\x7d' :: more := skipped_eq_self rfl
      have hclose : nextSymbol? c.rest = some ("\x7d", more) := by
        rw [← nextSymbol?_skip, hc, skipped_gap hgap, hbrace]
        rfl
      obtain ⟨d, hd, hdrest⟩ := Reader.acceptSymbol_ok hclose
      refine .step hd ?_
      rw [if_pos rfl]
      exact .pure hdrest rfl
  | @cons gap x y t ts hgap hx hy ih =>
      obtain ⟨fuel, rfl⟩ := Nat.exists_eq_succ_of_ne_zero (Nat.ne_zero_of_lt hfuel)
      obtain ⟨d, cs, hfirst, hd, hne⟩ := hx.first
      have hlen := hy.length_le
      have hxpos : 0 < x.length := by
        rw [hfirst]
        exact Nat.succ_pos _
      have hskip : c.skip.rest = x ++ y := by
        rw [hc, skipped_gap hgap, hfirst]
        exact skipped_eq_self hd
      simp only [List.length_append, List.length_cons] at hdepth hbound hfuel hlen
      have hrest : c.skip.rest = d :: (cs ++ y) := by rw [hskip, hfirst]; rfl
      have hno : ∀ rest, nextSymbol? c.rest ≠ some ("\x7d", rest) := by
        intro rest hs
        have hhead : "\x7d".toList.head? = some d := head_nextSymbol? hrest hs
        exact hne (Option.some.inj hhead).symm
      refine .step (Reader.acceptSymbol_not hno) ?_
      rw [if_neg Bool.false_ne_true]
      refine .bind (hx.takes hskip (by omega) (by rw [List.length_append]; omega)) fun v e he hv => ?_
      refine .bind (ih (by rw [rest_skip, he]) (by omega) (by omega) (by omega)) fun us f hf hus =>
        .pure hf ?_
      simpa [Tree.sameSlots, hv] using hus

/-! ### Classes -/

def NameText (x : List Char) (t : Tree) : Prop :=
  ∃ text line, IsName defaultSigil text ∧ x = text.toList ∧ t = .name text line

theorem NameText.skip (h : NameText x t) (hc : c.rest = ' ' :: (x ++ more)) :
    c.skip.rest = x ++ more := by
  obtain ⟨text, line, hname, rfl, -⟩ := h
  exact skip_blank_name hname hc

theorem NameText.takes (h : NameText x t) (hc : c.skip.rest = x ++ more) (hmore : Closed more)
    {g : TreeGrammar} (hsigil : g.sigil = defaultSigil) :
    g.nameLeaf.Takes c more (·.same t = true) := by
  obtain ⟨text, line, hname, rfl, rfl⟩ := h
  refine (Reader.nameLeaf_takes hsigil hname hc hmore).mono ?_
  rintro _ ⟨line', rfl⟩
  exact Tree.same_name

theorem skip_names (h : List.Forall₂ NameText xs ts) (hne : xs ≠ [])
    (hc : c.rest = ' ' :: (commaSeparated xs ++ more)) : c.skip.rest = commaSeparated xs ++ more := by
  cases h with
  | nil => exact absurd rfl hne
  | @cons x t xs ts hx _ =>
      obtain ⟨tail, htail⟩ := commaSeparated_cons x xs
      rw [htail, List.append_assoc] at hc ⊢
      exact hx.skip hc

/-- Names separated by commas are read up to what is no comma. -/
theorem names_takes (h : List.Forall₂ NameText xs ts) (hne : xs ≠ []) (hmore : Closed more)
    (hno : ∀ rest, nextSymbol? more ≠ some (",", rest)) {fuel : Nat}
    (hc : c.skip.rest = commaSeparated xs ++ more) (hfuel : xs.length ≤ fuel) :
    ((Grammar.ofDepth defaultSigil bound depth).namesWithin fuel).Takes c more
      fun us => Tree.sameSlots (us.map some) (ts.map some) = true := by
  induction h generalizing fuel c with
  | nil => exact absurd rfl hne
  | @cons x t xs ts hx hxs ih =>
      obtain ⟨fuel, rfl⟩ : ∃ k, fuel = k + 1 := ⟨fuel - 1, by simp at hfuel; omega⟩
      cases xs with
      | nil =>
          cases hxs
          rw [commaSeparated, List.intercalate_singleton] at hc
          refine .bind (hx.takes hc hmore (Grammar.sigil_ofDepth ..)) fun v d hd hv => ?_
          refine .step (Reader.acceptSymbol_not (hd ▸ hno)) ?_
          rw [if_neg Bool.false_ne_true]
          exact .pure hd (by simp [Tree.sameSlots, hv])
      | cons y xs =>
          have hrest : c.skip.rest = x ++ ',' :: ' ' :: (commaSeparated (y :: xs) ++ more) := by
            simpa [commaSeparated] using hc
          refine .bind (hx.takes hrest (.of_head (by decide)) (Grammar.sigil_ofDepth ..))
            fun v d hd hv => ?_
          have hcomma : nextSymbol? d.rest = some (",", ' ' :: (commaSeparated (y :: xs) ++ more)) := by
            rw [hd]
            rfl
          obtain ⟨e, he, herest⟩ := Reader.acceptSymbol_ok hcomma
          refine .step he ?_
          rw [if_pos rfl]
          refine .bind (ih (List.cons_ne_nil _ _) (skip_names hxs (List.cons_ne_nil _ _) herest)
            (Nat.le_of_succ_le_succ hfuel))
            fun us f hf hus => .pure hf ?_
          simpa [Tree.sameSlots, hv] using hus

theorem length_le_commaSeparated (xs : List (List Char)) :
    xs.length ≤ (commaSeparated xs).length + 1 := by
  induction xs with
  | nil => exact Nat.zero_le 1
  | cons x xs ih =>
      cases xs with
      | nil => simp
      | cons y xs =>
          simp only [commaSeparated, List.intercalate_cons_cons, List.length_append,
            List.length_cons, List.length_nil] at ih ⊢
          omega

/-- A text names the parent of a class, or is empty. -/
inductive ParentText : List Char → Option Tree → Prop
  | absent : ParentText [] none
  | written {x : List Char} {t : Tree} (h : NameText x t) :
    ParentText (" extends ".toList ++ x) (some t)

/-- A text names the interfaces of a class, or is empty. -/
inductive InterfacesText : List Char → Option Tree → Prop
  | absent : InterfacesText [] none
  | written {xs : List (List Char)} {ts : List Tree} {line : Nat} (h : List.Forall₂ NameText xs ts)
    (hne : xs ≠ []) :
    InterfacesText (" implements ".toList ++ commaSeparated xs) (some (.list .nameList ts line))

/-- Interfaces are not taken for a parent, nor is what comes behind them. -/
theorem InterfacesText.not_extends {symbol : String} (h : InterfacesText x o)
    (hsymbol : nextSymbol? more = some (symbol, cs)) (rest : List Char) :
    nextWord? (x ++ more) ≠ some ("extends", rest) := by
  cases h with
  | absent =>
      rw [List.nil_append, nextWord?_of_symbol hsymbol]
      exact nofun
  | @written xs ts line _ _ =>
      have hnext : nextWord? (" implements ".toList ++ commaSeparated xs ++ more) =
          some ("implements", ' ' :: (commaSeparated xs ++ more)) :=
        nextWord?_between "implements" rfl (commaSeparated xs ++ more)
      exact nextWord?_ne hnext (by decide) rest

section Clauses

variable {α : Type} {k : Option Tree → PlainReader α} {left : List Char} {Q : α → Prop}

theorem ParentText.clause (h : ParentText x o) (hc : c.rest = x ++ more) (hmore : Closed more)
    (hno : ∀ rest, nextWord? more ≠ some ("extends", rest))
    (hk : ∀ v d, d.rest = more → Tree.sameSlots [v] [o] = true → (k v).Takes d left Q) :
    (Reader.acceptWord "extends" >>= fun found =>
      if found then (some <$> (Grammar.ofDepth defaultSigil bound depth).nameLeaf) >>= k
      else pure none >>= k).Takes c left Q := by
  cases h with
  | absent =>
      refine .step (Reader.acceptWord_not (hc ▸ hno)) ?_
      rw [if_neg Bool.false_ne_true]
      exact hk none c hc rfl
  | @written x t h =>
      have hword : nextWord? c.rest = some ("extends", ' ' :: (x ++ more)) := by
        rw [hc]
        exact nextWord?_between "extends" rfl (x ++ more)
      obtain ⟨d, hd, hdrest⟩ := Reader.acceptWord_ok hword
      refine .step hd ?_
      rw [if_pos rfl]
      exact (some_takes (h.takes (h.skip hdrest) hmore (Grammar.sigil_ofDepth ..))).bind hk

theorem InterfacesText.clause {m : Nat} (h : InterfacesText x o) (hc : c.rest = x ++ more)
    (hmore : Closed more) (hsymbol : ∃ symbol rest, nextSymbol? more = some (symbol, rest) ∧ symbol ≠ ",")
    (hbound : x.length < bound)
    (hk : ∀ v d, d.rest = more → Tree.sameSlots [v] [o] = true → (k v).Takes d left Q) :
    (Reader.acceptWord "implements" >>= fun found =>
      if found then (Grammar.ofDepth defaultSigil bound depth).namesWithin
        (Grammar.ofDepth defaultSigil bound depth : TreeGrammar).bound >>= fun names =>
          some <$> Nodes.list .nameList names m >>= k
      else pure none >>= k).Takes c left Q := by
  obtain ⟨symbol, rest, hnext, hne⟩ := hsymbol
  cases h with
  | absent =>
      have hno : ∀ rest, nextWord? c.rest ≠ some ("implements", rest) := by
        intro rest hw
        rw [hc, List.nil_append, nextWord?_of_symbol hnext] at hw
        cases hw
      refine .step (Reader.acceptWord_not hno) ?_
      rw [if_neg Bool.false_ne_true]
      exact hk none c hc rfl
  | @written xs ts line h hxs =>
      have hword : nextWord? c.rest = some ("implements", ' ' :: (commaSeparated xs ++ more)) := by
        rw [hc]
        exact nextWord?_between "implements" rfl (commaSeparated xs ++ more)
      obtain ⟨d, hd, hdrest⟩ := Reader.acceptWord_ok hword
      refine .step hd ?_
      rw [if_pos rfl, Grammar.bound_ofDepth]
      have hlen := length_le_commaSeparated xs
      have himplements : " implements ".toList.length = 12 := rfl
      simp only [List.length_append, himplements] at hbound
      refine .bind (names_takes h hxs hmore (nextSymbol?_ne hnext hne) (skip_names h hxs hdrest)
        (by omega)) fun us e he hus => hk _ e he ?_
      simpa [Tree.sameSlots] using hus

end Clauses

def classWords : List String := ["class", "abstract", "final"]

theorem firstModifier_class : ∀ flags < 64, (flags = 0 ∨ flags &&& 48 ≠ 0) →
    ∀ m ∈ (modifiersOf flags).head?, m.2 ∈ classWords := by
  decide

theorem nextWord?_class (hflags : flags < 64) (hfirst : flags = 0 ∨ flags &&& 48 ≠ 0)
    (cs : List Char) : ∃ word rest, word ∈ classWords ∧
      nextWord? ((modifiersText flags).toList ++ ("class".toList ++ ' ' :: cs)) = some (word, rest) := by
  rw [toList_modifiersText]
  cases hmodifiers : modifiersOf flags with
  | nil =>
      have hword : isWord "class" = true := by decide
      exact ⟨"class", _, by decide, nextWord?_append hword (.of_head (by decide))⟩
  | cons m modifiers =>
      have hhead : m ∈ (modifiersOf flags).head? := by rw [hmodifiers]; rfl
      have hmem : m ∈ modifiersOf flags := List.mem_of_mem_head? hhead
      have hword := (modifierBit?_of_mem m (mem_of_modifiersOf m hmem)).1
      rw [modifierChars, List.flatMap_cons, List.append_assoc, List.append_assoc]
      exact ⟨m.2, _, firstModifier_class flags hflags hfirst m hhead,
        nextWord?_append hword (.of_head (by decide))⟩

theorem classDeclaration_takes {bodyLine : Nat} (hflags : flags < 64) (hname : IsName defaultSigil text)
    (hx : ParentText x o) (hy : InterfacesText y uses)
    (hz : Lines MethodText ('\x7d' :: more) (z ++ '\x7d' :: more) ts)
    (hc : c.skip.rest = (modifiersText flags).toList ++ ("class".toList ++ ' ' :: (text.toList ++
      (x ++ (y ++ ' ' :: '\x7b' :: (z ++ '\x7d' :: more))))))
    (hdepth : z.length < depth) (hbound : ((modifiersText flags).toList ++ ("class".toList ++ ' ' ::
      (text.toList ++ (x ++ (y ++ ' ' :: '\x7b' :: (z ++ '\x7d' :: more)))))).length < bound)
    (m n : Nat) :
    ((Grammar.ofDepth defaultSigil bound depth).classDeclaration m).Takes c more
      (·.same (.node n (.decl .classDef text flags)
        [o, uses, some (.list .stmtList ts bodyLine)]) = true) := by
  simp only [List.length_append, List.length_cons] at hbound
  have hclosed : Closed (x ++ (y ++ ' ' :: '\x7b' :: (z ++ '\x7d' :: more))) := by
    cases hx <;> cases hy <;> exact .of_head (by decide)
  refine declared_takes hflags hname (by decide) (by decide) hc hclosed (by omega) fun f hf => ?_
  have hbrace : nextSymbol? (' ' :: '\x7b' :: (z ++ '\x7d' :: more)) =
    some ("\x7b", z ++ '\x7d' :: more) := rfl
  have hclosed' : Closed (y ++ ' ' :: '\x7b' :: (z ++ '\x7d' :: more)) := by
    cases hy <;> exact .of_head (by decide)
  refine hx.clause hf hclosed' (hy.not_extends hbrace) fun v g hg hv => ?_
  refine hy.clause hg (.of_head (by decide)) ⟨_, _, hbrace, by decide⟩ (by omega) fun w k hk hw => ?_
  have hopen : nextSymbol? k.skip.rest = some ("\x7b", z ++ '\x7d' :: more) := by
    rw [nextSymbol?_skip, hk]
    exact hbrace
  obtain ⟨p, hp, hprest⟩ := Reader.expectSymbol_ok hopen
  refine .here (.step hp ?_)
  have hroom : (z ++ '\x7d' :: more).length < bound := by
    simp only [List.length_append, List.length_cons]
    omega
  rw [Grammar.bound_ofDepth]
  refine .bind (hz.methods (by rw [rest_skip, hprest])
    (by simp only [List.length_append, List.length_cons]; omega) hroom hroom)
    fun us q hq hus => .pure hq ?_
  rw [Tree.same_of_label (by simp [Label.same])]
  refine Tree.sameSlots_cons_iff.mpr ⟨hv, Tree.sameSlots_cons_iff.mpr ⟨hw, ?_⟩⟩
  simpa [Tree.sameSlots] using hus

theorem StatementText.classDef {bodyLine : Nat} (hflags : flags < 64)
    (hfirst : flags = 0 ∨ flags &&& 48 ≠ 0) (hname : IsName defaultSigil text) (hx : ParentText x o)
    (hy : InterfacesText y uses)
    (hz : ∀ more, Lines MethodText ('\x7d' :: more) (z ++ '\x7d' :: more) ts) :
    StatementText ((modifiersText flags).toList ++ "class ".toList ++ text.toList ++ x ++ y ++
        ' ' :: '\x7b' :: z ++ ['\x7d'])
      (.node line (.decl .classDef text flags) [o, uses, some (.list .stmtList ts bodyLine)]) := by
  have happend (cs : List Char) : (modifiersText flags).toList ++ "class ".toList ++ text.toList ++
      x ++ y ++ ' ' :: '\x7b' :: z ++ ['\x7d'] ++ cs = (modifiersText flags).toList ++
        ("class".toList ++ ' ' :: (text.toList ++ (x ++ (y ++ ' ' :: '\x7b' ::
          (z ++ '\x7d' :: cs))))) := by
    simp
  have hword : isWord "class" = true := by decide
  have hstart (cs : List Char) := first_modified flags hword (' ' :: (text.toList ++ (x ++ (y ++
    ' ' :: '\x7b' :: (z ++ '\x7d' :: cs)))))
  refine ⟨⟨?_, fun more => ?_⟩, ?_⟩
  · obtain ⟨d, ds, htext, hd⟩ := hstart []
    rw [← happend, List.append_nil] at htext
    refine ⟨d, ds, htext, startsToken_of_opensTerm (by simp [opensTerm, hd]), fun hmem => ?_⟩
    simp only [List.mem_cons, List.not_mem_nil, or_false] at hmem
    rcases hmem with rfl | rfl | rfl <;> exact absurd hd (by decide)
  · obtain ⟨word, rest, hmem, hnext⟩ := nextWord?_class hflags hfirst (text.toList ++ (x ++ (y ++
      ' ' :: '\x7b' :: (z ++ '\x7d' :: more))))
    rw [happend]
    refine .of_word hnext ?_
    simp only [classWords, List.mem_cons, List.not_mem_nil, or_false] at hmem
    rcases hmem with rfl | rfl | rfl <;> decide
  intro bound depth c more hc _ hdepth hbound
  rw [happend] at hc hbound
  simp only [List.length_append, List.length_cons] at hdepth
  obtain ⟨d, ds, htext, hd⟩ := hstart more
  have hne : d ≠ ';' ∧ d ≠ '\x7b' := by
    constructor <;> rintro rfl <;> exact absurd hd (by decide)
  refine anyStatement_of_plain (hc.trans htext) hne ?_
  have hskip : c.skip.skip.rest = (modifiersText flags).toList ++ ("class".toList ++ ' ' ::
      (text.toList ++ (x ++ (y ++ ' ' :: '\x7b' :: (z ++ '\x7d' :: more))))) := by
    rw [skip_skip, hc]
  have hread : ((Grammar.ofDepth defaultSigil bound depth).classDeclaration
      c.skip.position.line).Takes c.skip more (·.same (.node line (.decl .classDef text flags)
        [o, uses, some (.list .stmtList ts bodyLine)]) = true) :=
    classDeclaration_takes hflags hname hx hy (hz more) hskip (by omega) hbound _ _
  obtain ⟨word, rest, hmem, hnext⟩ := nextWord?_class hflags hfirst (text.toList ++ (x ++ (y ++
    ' ' :: '\x7b' :: (z ++ '\x7d' :: more))))
  obtain ⟨e, he, -⟩ := word?_of_some (hc ▸ hnext : nextWord? c.skip.rest = some (word, rest))
  refine .get ?_
  rw [he]
  simp only [classWords, List.mem_cons, List.not_mem_nil, or_false] at hmem
  rcases hmem with rfl | rfl | rfl <;> exact hread

end SnippetRewrite
