import SnippetRewrite.Proofs.Parse.Pairing
import SnippetRewrite.Proofs.Parse.Parts

/-!
Two grammars side by side, part by part. The first is made for texts up to some length and some
depth, and both kinds of bound are followed through every part: a loop has more rounds than there are
characters left, and takes at least one character in each, so it is never stopped by its bound; a
nested part is read behind at least one character of the part around it, so it is never too deep. The
expression that a statement consists of is the one nested part that is read where the part around it
begins. A part that makes a node makes it on the line of its first token, of its left operand, or, for
lists inside a declaration, of the declaration, so none stands on a later line than its children.
-/

namespace SnippetRewrite

namespace Pairing

variable {m : Type → Type} {ν : Type} {k : Pairing m ν} {s s' : Owed ν} {d : Cursor} {low low' n n' : Nat}

theorem MakesOne?.mono {t : Option Tree} {w : Option ν} (h : k.MakesOne? s low n t w s' d)
    (hlow : low' ≤ low) (hn : n ≤ n') : k.MakesOne? s low' n' t w s' d := by
  obtain ⟨p, ht, hw, hs, hp, hd⟩ := h
  exact ⟨p, ht, hw, hs, hp.mono hlow, Nat.lt_of_lt_of_le hd hn⟩

theorem MakesOne?.none (h : d.rest.length < n) : k.MakesOne? s low n none none s d :=
  ⟨Option.none, rfl, rfl, by simp, behind_none, h⟩

theorem MakesAll.nil (h : d.rest.length < n) : k.MakesAll s low n [] [] s d :=
  ⟨[], rfl, rfl, by simp, by simp, h⟩

theorem MakesAll.one {t : Tree} {w : ν} (hlow : low ≤ k.row t.line) (h : d.rest.length < n) :
    k.MakesAll s low n [t] [w] (s ++ [(t, w)]) d :=
  ⟨[(t, w)], rfl, rfl, rfl, by simpa using hlow, h⟩

theorem MakesAll.cons {t : Tree} {w : ν} {ts : List Tree} {ws : List ν} (ht : low ≤ k.row t.line)
    (h : k.MakesAll (s ++ [(t, w)]) low' n ts ws s' d) (hlow : low ≤ low') (hn : n ≤ n') :
    k.MakesAll s low n' (t :: ts) (w :: ws) s' d := by
  obtain ⟨ps, rfl, rfl, rfl, hps, hd⟩ := h
  exact ⟨(t, w) :: ps, rfl, rfl, by simp,
    List.forall_mem_cons.mpr ⟨ht, fun p hp => Nat.le_trans hlow (hps p hp)⟩,
    Nat.lt_of_lt_of_le hd hn⟩

/-- A statement in front of others; there is none for a lone semicolon. -/
theorem MakesAll.append {p : Option (Tree × ν)} {ts : List Tree} {ws : List ν}
    (hp : k.Behind low p) (h : k.MakesAll (s ++ p.toList) low' n ts ws s' d)
    (hlow : low ≤ low') (hn : n ≤ n') :
    k.MakesAll s low n' ((p.map Prod.fst).toList ++ ts) ((p.map Prod.snd).toList ++ ws) s' d := by
  obtain ⟨ps, rfl, rfl, rfl, hps, hd⟩ := h
  refine ⟨p.toList ++ ps, ?_, ?_, by simp, fun q hq => ?_, Nat.lt_of_lt_of_le hd hn⟩
  · cases p <;> simp
  · cases p <;> simp
  · rcases List.mem_append.mp hq with hq | hq
    · exact hp q (Option.mem_toList.mp hq)
    · exact Nat.le_trans hlow (hps q hq)

section

variable {low low' n n' line : Nat} {c : Cursor} {params : Tree × ν} {uses result : Option (Tree × ν)}

/-- The parts of a signature have been made, parameters first. -/
def Signs (k : Pairing m ν) (s : Owed ν) (low n : Nat) (v : Signature Tree) (w : Signature ν)
    (s' : Owed ν) (d : Cursor) : Prop :=
  ∃ params uses result, v = ⟨params.1, uses.map Prod.fst, result.map Prod.fst⟩ ∧
    w = ⟨params.2, uses.map Prod.snd, result.map Prod.snd⟩ ∧
    s' = s ++ params :: (uses.toList ++ result.toList) ∧
    (∀ o ∈ [some params, uses, result], k.Behind low o) ∧ d.rest.length < n

variable [Monad m] [MonadExceptOf SyntaxFailure m] [Nodes m ν] [k.Lawful]

theorem Rel.signature {γ δ : Type} {x : PlainReader (Signature Tree)} {y : Reader m (Signature ν)}
    {f : Signature Tree → PlainReader γ} {f' : Signature ν → Reader m δ}
    {R : γ → δ → Owed ν → Cursor → Prop} (hx : k.Rel s c x y (k.Signs s low n))
    (hf : ∀ params uses result d, k.row c.position.line ≤ k.row d.position.line →
      d.rest.length < n → (∀ o ∈ [Option.some params, uses, result], k.Behind low o) →
      k.Rel (s ++ params :: (uses.toList ++ result.toList)) d
        (f ⟨params.1, uses.map Prod.fst, result.map Prod.fst⟩)
        (f' ⟨params.2, uses.map Prod.snd, result.map Prod.snd⟩) R) :
    k.Rel s c (x >>= f) (y >>= f') R := by
  refine hx.bind fun v w s' d _ hl _ hsigns => ?_
  obtain ⟨params, uses, result, rfl, rfl, rfl, hparts, hn⟩ := hsigns
  exact hf params uses result d hl hn hparts

/-- A function is made of its signature and its body. -/
theorem Rel.declare {kind : DeclKind} {name : String} {flags : Nat} (body : Option (Tree × ν))
    (hkind : kind.arity = 4) (hparts : ∀ o ∈ [Option.some params, uses, result], k.Behind (k.row line) o)
    (hbody : k.Behind (k.row line) body) (hlow : low ≤ k.row line)
    (hline : k.row line ≤ k.row c.position.line) (hn : c.rest.length < n) :
    k.Rel (s ++ params :: (uses.toList ++ result.toList) ++ body.toList) c
      (Nodes.decl kind name flags
        (Signature.slots ⟨params.1, uses.map Prod.fst, result.map Prod.fst⟩ (body.map Prod.fst)) line)
      (Nodes.decl kind name flags
        (Signature.slots ⟨params.2, uses.map Prod.snd, result.map Prod.snd⟩ (body.map Prod.snd))
        line : Reader m ν)
      (k.Makes s low n) := by
  refine .decl [Option.some params, uses, body, result] (by simp [swapLast]) hkind.symm ?_ hlow hline hn
  simp only [List.forall_mem_cons] at hparts ⊢
  exact ⟨hparts.1, hparts.2.1, hbody, hparts.2.2⟩

end

end Pairing

namespace Grammar

open Pairing Reader

variable {m : Type → Type} {ν : Type} [Monad m] [MonadExceptOf SyntaxFailure m] [Nodes m ν]

/-- Two grammars whose nested parts are in step where fewer than `most` characters are left: those of
the first take at least one character and make one node. The loops of the first have more rounds than
there are characters. -/
structure Paired (k : Pairing m ν) (most : Nat) (g : TreeGrammar) (g' : Grammar m ν) : Prop where
  bound : g.bound ≤ g'.bound
  room : most < g.bound
  identifiers : ∀ s c a, k.Inv s c a → k.Identifiers c g.sigil g'.sigil
  /-- The look ahead behind the word `function` tells both the same, unless the first fails there and
  failures do not count. -/
  lookahead : ∀ s c a next, k.Inv s c a → c.word? = some ("function", next) →
    g'.peekIdentifier next = g.peekIdentifier next ∨
      g.peekIdentifier next = false ∧ ¬k.failures ∧ ∀ r, g.expressionStatement c ≠ .ok r
  expression : ∀ s c, c.rest.length < most →
    k.Rel s c g.expression g'.expression (k.Makes s (k.row c.position.line) c.rest.length)
  conditional : ∀ s c, c.rest.length < most →
    k.Rel s c g.conditional g'.conditional (k.Makes s (k.row c.position.line) c.rest.length)
  operand : ∀ s c, c.rest.length < most →
    k.Rel s c g.operand g'.operand (k.Makes s (k.row c.position.line) c.rest.length)
  statement : ∀ s c, c.rest.length < most →
    k.Rel s c g.statement g'.statement (k.MakesOne? s (k.row c.position.line) c.rest.length)

/-- Two sigils under which the same words are identifiers, wherever the readers come. -/
structure SameWords (k : Pairing m ν) (sigil sigil' : Char) (bound : Nat) : Prop where
  identifiers : ∀ s c a, k.Inv s c a → k.Identifiers c sigil sigil'
  lookahead : ∀ depth bound' depth' s c a next, k.Inv s c a → c.word? = some ("function", next) →
    (ofDepth sigil' bound' depth' : Grammar m ν).peekIdentifier next =
        (ofDepth sigil bound depth : TreeGrammar).peekIdentifier next ∨
      (ofDepth sigil bound depth : TreeGrammar).peekIdentifier next = false ∧ ¬k.failures ∧
        ∀ r, (ofDepth sigil bound depth : TreeGrammar).expressionStatement c ≠ .ok r

/-- Under one sigil nothing has to be shown. -/
theorem SameWords.same {k : Pairing m ν} {sigil : Char} {bound : Nat} (hword : ∀ text, k.Word text) :
    SameWords k sigil sigil bound where
  identifiers _ _ _ _ := ⟨fun text _ h => ⟨h, hword text⟩, fun _ _ h => h⟩
  lookahead depth _ depth' _ _ _ _ _ _ := .inl (by simp [peekIdentifier])

variable {k : Pairing m ν} [k.Lawful] {g : TreeGrammar} {g' : Grammar m ν} {s : Owed ν}
  {c d : Cursor} {most line n n' : Nat}

theorem identifier_paired {γ δ : Type} {f : String → PlainReader γ} {f' : String → Reader m δ}
    {R : γ → δ → Owed ν → Cursor → Prop} (hg : g.Paired k most g')
    (hf : ∀ text d, k.row c.position.line ≤ k.row d.position.line → d.rest.length < c.rest.length →
      k.Word text → k.Rel s d (f text) (f' text) R) :
    k.Rel s c (g.identifier >>= f) (g'.identifier >>= f') R := by
  refine (rel_identifier fun a => hg.identifiers s c a).bind fun text w s' d _ hl _ hreads => ?_
  obtain ⟨⟨rfl, rfl, hn⟩, hword⟩ := hreads
  exact hf w d hl hn hword

/-! ### Lists and blocks -/

theorem nameLeaf_paired (hg : g.Paired k most g') :
    k.Rel s c g.nameLeaf g'.nameLeaf (k.Makes s (k.row c.position.line) c.rest.length) :=
  .here fun hl hn => identifier_paired hg fun _ _ hl₁ hn₁ hword =>
    .name hword hl hl₁ (Nat.lt_of_lt_of_le hn₁ hn)

theorem itemsWithin_paired {item : PlainReader Tree} {item' : Reader m ν}
    (hitem : ∀ s c, c.rest.length < most →
      k.Rel s c item item' (k.Makes s (k.row c.position.line) c.rest.length))
    (close : String) (hn : n ≤ n') (hc : c.rest.length < most)
    (hroom : c.rest.length < k.limit + n) :
    k.Rel s c (itemsWithin close item n) (itemsWithin close item' n')
      (k.MakesAll s (k.row c.position.line) c.rest.length) := by
  induction n generalizing c n' s with
  | zero => exact .giveUp hroom
  | succ n ih =>
      obtain ⟨n', rfl⟩ := Nat.exists_eq_add_of_le' (Nat.le_trans (Nat.succ_pos n) hn)
      refine .accept (fun d _ _ hd => .pure (.nil hd)) ?_
      refine (hitem s c hc).node fun t w d hl hd hlow => .accept (fun e _ hl₁ he => ?_) ?_
      · exact (ih (by omega) (by omega) (by omega)).bind fun _ _ _ _ _ _ _ hall =>
          .pure (hall.cons hlow (by omega) (by omega))
      · exact (rel_expectSymbol close).token fun _ _ _ hend => .pure (.one hlow (by omega))

theorem items_paired (hg : g.Paired k most g') {item : PlainReader Tree} {item' : Reader m ν}
    (hitem : ∀ s c, c.rest.length < most →
      k.Rel s c item item' (k.Makes s (k.row c.position.line) c.rest.length))
    (close : String) (hc : c.rest.length < most) :
    k.Rel s c (g.items close item) (g'.items close item')
      (k.MakesAll s (k.row c.position.line) c.rest.length) :=
  itemsWithin_paired hitem close hg.bound hc (by have := hg.room; omega)

theorem optionalExpression_paired (hg : g.Paired k most g') (stop : String)
    (hc : c.rest.length < most) :
    k.Rel s c (g.optionalExpression stop) (g'.optionalExpression stop)
      (k.MakesOne? s (k.row c.position.line) (c.rest.length + 1)) :=
  .peek fun _ => .cond (fun _ => .pure (.none (Nat.lt_succ_self _))) fun _ =>
    (hg.expression s c hc).some.mono fun _ _ _ _ h => h.mono (Nat.le_refl _) (Nat.le_succ _)

theorem blockStatementsWithin_paired
    (hstatement : ∀ s c, c.rest.length < most →
      k.Rel s c g.statement g'.statement (k.MakesOne? s (k.row c.position.line) c.rest.length))
    (hn : n ≤ n') (hc : c.rest.length < most) (hroom : c.rest.length < k.limit + n) :
    k.Rel s c (g.blockStatementsWithin n) (g'.blockStatementsWithin n')
      (k.MakesAll s (k.row c.position.line) (c.rest.length + 1)) := by
  induction n generalizing c n' s with
  | zero => exact .giveUp hroom
  | succ n ih =>
      obtain ⟨n', rfl⟩ := Nat.exists_eq_add_of_le' (Nat.le_trans (Nat.succ_pos n) hn)
      refine .skip fun hl hlen => .get ?_
      split
      · exact .fail (by simp)
      · exact .pure (.nil (by omega))
      · refine (hstatement s _ (by omega)).node? fun p d hl₁ hd hp => ?_
        exact (ih (by omega) (by omega) (by omega)).bind fun _ _ _ _ _ _ _ hall =>
          .pure (hall.append (hp.mono hl) (by omega) (by omega))

theorem block_paired (hg : g.Paired k most g') (hc : c.rest.length ≤ most) :
    k.Rel s c g.block g'.block (k.Makes s (k.row c.position.line) c.rest.length) := by
  have hroom := hg.room
  refine .here fun hl hlen => (rel_expectSymbol _).token fun _ d hl₁ hd => ?_
  refine (blockStatementsWithin_paired hg.statement hg.bound (by omega) (by omega)).nodes
    fun ps e hl₂ he hps => (rel_expectSymbol _).token fun _ e' hl₃ he' => ?_
  exact .list ps rfl (fun p hp => Nat.le_trans hl₁ (hps p hp)) hl (by omega) (by omega)

/-! ### Signatures -/

theorem param_paired (hg : g.Paired k most g') (hc : c.rest.length ≤ most) :
    k.Rel s c g.param g'.param (k.Makes s (k.row c.position.line) c.rest.length) := by
  refine .here fun hl hlen => identifier_paired hg fun text d hl₁ hd hword => ?_
  refine (Rel.name hword (Nat.le_refl _) hl₁ (Nat.lt_succ_self _)).node fun name w e hl₂ he hname => ?_
  refine .accept (fun e' _ hl₃ he' => ?_) ?_
  · exact (hg.conditional _ e' (by omega)).some.node? fun o e₂ hl₄ he₂ ho =>
      .fixed [some (name, w), o] (by simp) rfl (by simpa using ⟨hname, ho.mono (by omega)⟩) hl
        (by omega) (by omega)
  · exact .pure_bind (.fixed [some (name, w), none] (by simp) rfl (by simpa using hname) hl (by omega)
      (by omega))

theorem capturedVariable_paired (hg : g.Paired k most g') :
    k.Rel s c g.capturedVariable g'.capturedVariable (k.Makes s (k.row c.position.line) c.rest.length) :=
  .here fun hl hn => identifier_paired hg fun _ _ hl₁ hn₁ hword =>
    .var hword hl hl₁ (Nat.lt_of_lt_of_le hn₁ hn)

theorem uses_paired (hg : g.Paired k most g') (hline : k.row line ≤ k.row c.position.line)
    (hc : c.rest.length < most) :
    k.Rel s c (g.uses line) (g'.uses line) (k.MakesOne? s (k.row line) (c.rest.length + 1)) := by
  refine .acceptWord (fun d _ hl hd => ?_) (.pure (.none (Nat.lt_succ_self _)))
  refine (rel_expectSymbol _).token fun _ e hl₁ he => ?_
  refine (items_paired hg (fun _ _ _ => capturedVariable_paired hg) ")" (by omega)).nodes
    fun ps e' hl₂ he' hps => ?_
  exact .some (.list ps rfl (fun p hp => by have := hps p hp; omega) (Nat.le_refl _) (by omega)
    (by omega))

/-- A question mark in front of a return type belongs to its name. -/
theorem resultType_paired (hg : g.Paired k most g') :
    k.Rel s c g.resultType g'.resultType
      (k.MakesOne? s (k.row c.position.line) (c.rest.length + 1)) := by
  refine .accept (fun d _ hl hd => .here fun hl₁ hd₁ => ?_) (.pure (.none (Nat.lt_succ_self _)))
  refine .accept (fun e _ hl₂ he => ?_) ?_
  · exact identifier_paired hg fun text e' hl₃ he' hword =>
      .some (.name (Lawful.mark hword) (by omega) (by omega) (by omega))
  · refine identifier_paired hg fun text e' hl₃ he' hword => ?_
    exact .some (.name (by simpa using hword) (by omega) (by omega) (by omega))

theorem signature_paired (hg : g.Paired k most g') (hline : k.row line ≤ k.row c.position.line)
    (hc : c.rest.length ≤ most) :
    k.Rel s c (g.signature line) (g'.signature line) (k.Signs s (k.row line) c.rest.length) := by
  refine (rel_expectSymbol _).token fun _ d hl hd => ?_
  refine (items_paired hg (fun _ _ hc => param_paired hg (Nat.le_of_lt hc)) ")" (by omega)).nodes
    fun ps e hl₁ he hps => ?_
  refine (Rel.list ps rfl (fun p hp => by have := hps p hp; omega) (Nat.le_refl _) (by omega)
    (Nat.lt_succ_self _)).node fun params w e' hl₂ he' hparams => ?_
  refine (uses_paired hg (by omega) (by omega)).node? fun uses e₁ hl₃ he₁ huses => ?_
  refine (resultType_paired hg).node? fun result e₂ hl₄ he₂ hresult => .pure ?_
  refine ⟨(params, w), uses, result, rfl, rfl, by simp, ?_, by omega⟩
  simpa using ⟨hparams, huses, hresult.mono (by omega)⟩

/-! ### Expressions -/

theorem arguments_paired (hg : g.Paired k most g') (hline : k.row line ≤ k.row c.position.line)
    (hc : c.rest.length < most) :
    k.Rel s c (g.arguments line) (g'.arguments line) (k.Makes s (k.row line) c.rest.length) :=
  (items_paired hg hg.expression ")" hc).nodes fun ps _ _ hd hps =>
    .list ps rfl (fun p hp => Nat.le_trans hline (hps p hp)) (Nat.le_refl _) (by omega) hd

theorem newObject_paired (hg : g.Paired k most g') (hline : k.row line ≤ k.row c.position.line)
    (hc : c.rest.length ≤ most) :
    k.Rel s c (g.newObject line) (g'.newObject line) (k.Makes s (k.row line) c.rest.length) := by
  refine (nameLeaf_paired hg).node fun className w d hl hd hname => ?_
  have hnew {args : Tree} {w' : ν} {e : Cursor} (hargs : k.row line ≤ k.row args.line)
      (hl : k.row line ≤ k.row e.position.line) (he : e.rest.length < c.rest.length) :
      k.Rel (s ++ [(className, w)] ++ [(args, w')]) e
        (Nodes.fixed .new [some className, some args] line)
        (Nodes.fixed .new [some w, some w'] line) (k.Makes s (k.row line) c.rest.length) :=
    .fixed [some (className, w), some (args, w')] (by simp) rfl
      (by simpa using ⟨Nat.le_trans hline hname, hargs⟩) (Nat.le_refl _) hl he
  refine .accept (fun e _ hl₁ he => ?_) ?_
  · exact (arguments_paired hg (by omega) (by omega)).node fun args w' e' hl₂ he' hargs =>
      hnew hargs (by omega) (by omega)
  · exact (Rel.list [] (by simp) (by simp) (Nat.le_refl _) (by omega) (Nat.lt_succ_self _)).node
      fun args w' e' hl₂ he' hargs => hnew hargs (by omega) (by omega)

theorem closure_paired (hg : g.Paired k most g') (hline : k.row line ≤ k.row c.position.line)
    (hc : c.rest.length ≤ most) :
    k.Rel s c (g.closure line) (g'.closure line) (k.Makes s (k.row line) c.rest.length) := by
  refine (signature_paired hg hline hc).signature fun params uses result d hl hd hparts => ?_
  refine (block_paired hg (by omega)).node fun body w e hl₁ he hbody => ?_
  exact .declare (some (body, w)) rfl hparts (by simpa using (by omega)) (Nat.le_refl _)
    (by omega) (by omega)

theorem array_paired (hg : g.Paired k most g') (close : String)
    (hline : k.row line ≤ k.row c.position.line) (hc : c.rest.length < most) :
    k.Rel s c (g.array close line) (g'.array close line) (k.Makes s (k.row line) c.rest.length) :=
  (items_paired hg hg.expression close hc).nodes fun ps _ _ hd hps =>
    .list ps rfl (fun p hp => Nat.le_trans hline (hps p hp)) (Nat.le_refl _) (by omega) hd

theorem reference_paired (hg : g.Paired k most g') (hline : k.row line ≤ k.row c.position.line) :
    k.Rel s c (g.reference line) (g'.reference line) (k.Makes s (k.row line) c.rest.length) := by
  refine .of_inv fun a ha => .get ?_
  have hid := hg.identifiers s c a ha
  cases hread : (Reader.identifier g.sigil : PlainReader String) c with
  | error failure =>
      by_cases hk : k.failures
      · rw [hid.error hk failure hread]
        exact .failAt (by simp) (.refl c)
      · exact Rel.never (y := Reader.failAt .expression c) (.failAt (by simp) (.refl c)) nofun hk
  | ok r =>
      obtain ⟨text, next⟩ := r
      obtain ⟨hread', hword⟩ := hid.ok text next hread
      obtain ⟨hnext, hlt⟩ := Cursor.ahead_of_identifier hread
      have hl := k.row_le hnext
      rw [hread']
      exact .set hnext (.peek fun _ => .cond
        (fun _ => .name hword (Nat.le_refl _) (by omega) hlt)
        fun _ => .var hword (Nat.le_refl _) (by omega) hlt)

theorem worded_paired (hg : g.Paired k most g') (hline : k.row line ≤ k.row c.position.line)
    (hc : c.rest.length ≤ most) :
    k.Rel s c (g.worded line) (g'.worded line) (k.Makes s (k.row line) c.rest.length) := by
  have hreference := reference_paired (s := s) hg hline
  refine .get ?_
  split
  · exact hreference
  · rename_i word next hword
    obtain ⟨hreach, hnext⟩ := Cursor.ahead_of_word? hword
    have hl := k.row_le hreach
    have hbehind {x : PlainReader Tree} {y : Reader m ν}
        (h : k.Rel s next x y (k.Makes s (k.row line) next.rest.length)) :
        k.Rel s next x y (k.Makes s (k.row line) c.rest.length) := h.widen (Nat.le_refl _) (Nat.le_of_lt hnext)
    split
    · exact .set hreach (.literal _ (Nat.le_refl _) (by omega) hnext)
    · split
      · exact .set hreach (hbehind (newObject_paired hg (by omega) (by omega)))
      · exact .set hreach (hbehind (closure_paired hg (by omega) (by omega)))
      · split
        · rename_i behind hpast
          obtain ⟨hreach', hbehind'⟩ := Cursor.ahead_of_symbol? (Cursor.pastSymbol?_eq_some.mp hpast)
          have hl' := k.row_le hreach'
          exact .set (hreach.trans hreach')
            ((array_paired hg ")" (by omega) (by omega)).widen (Nat.le_refl _) (by omega))
        · exact hreference
      · exact hreference

theorem primary_paired (hg : g.Paired k most g') (hc : c.rest.length ≤ most) :
    k.Rel s c g.primary g'.primary (k.Makes s (k.row c.position.line) c.rest.length) := by
  refine .here fun hl hlen => ?_
  have hworded := (worded_paired (s := s) hg (Nat.le_refl _)
    (show c.skip.rest.length ≤ most by omega)).widen hl hlen
  refine .get ?_
  split
  · exact hworded
  · rename_i first rest hrest
    have hagain : c.skip.skip.rest = first :: rest := by rw [skip_skip, hrest]
    refine .cond (fun hdigit => ?_) fun _ => .cond (fun _ => ?_) fun _ => ?_
    · exact (rel_number hagain hdigit).token fun _ _ hl₁ hd => .literal _ hl hl₁ (by omega)
    · exact (rel_string first hagain).token fun _ _ hl₁ hd => .literal _ hl hl₁ (by omega)
    · refine .accept (fun d _ hl₁ hd => ?_) (.accept (fun d _ hl₁ hd => ?_) hworded)
      · refine (hg.expression s d (by omega)).node fun t w e hl₂ he hlow =>
          (rel_expectSymbol _).token fun _ e' _ he' => .pure ⟨rfl, by omega, by omega⟩
      · exact (array_paired hg "]" (by omega) (by omega)).widen hl (by omega)

theorem member_paired (hg : g.Paired k most g') {object : Tree} {w : ν}
    (hobject : k.row line ≤ k.row object.line) (hline : k.row line ≤ k.row c.position.line)
    (hc : c.rest.length ≤ most) :
    k.Rel (s ++ [(object, w)]) c (g.member object line) (g'.member w line)
      (k.Makes s (k.row line) c.rest.length) := by
  refine (nameLeaf_paired hg).node fun name w₁ d hl hd hname => .accept (fun e _ hl₁ he => ?_) ?_
  · have hline' : k.row line ≤ k.row e.position.line := by omega
    refine (arguments_paired hg hline' (by omega)).node fun args w₂ e' hl₂ he' hargs => ?_
    exact .fixed [some (object, w), some (name, w₁), some (args, w₂)] (by simp) rfl
      (by simpa using ⟨hobject, by omega, hargs⟩) (Nat.le_refl _) (by omega) (by omega)
  · exact .fixed [some (object, w), some (name, w₁)] (by simp) rfl
      (by simpa using ⟨hobject, by omega⟩) (Nat.le_refl _) (by omega) hd

/-- What follows an expression is found by its first symbol, in both grammars. -/
theorem suffix?_paired (hg : g.Paired k most g') (symbol : String) {inner : Tree} {w : ν}
    (hinner : k.row line ≤ k.row inner.line) (hline : k.row line ≤ k.row c.position.line)
    (hc : c.rest.length < most) :
    (g.suffix? symbol inner line = none ∧ g'.suffix? symbol w line = none) ∨
      ∃ x y, g.suffix? symbol inner line = some x ∧ g'.suffix? symbol w line = some y ∧
        k.Rel (s ++ [(inner, w)]) c x y (k.Makes s (k.row line) (c.rest.length + 1)) := by
  unfold Grammar.suffix?
  split
  · refine .inr ⟨_, _, rfl, rfl, ?_⟩
    refine (arguments_paired hg hline hc).node fun args w₁ d hl hd hargs => ?_
    exact .fixed [some (inner, w), some (args, w₁)] (by simp) rfl (by simpa using ⟨hinner, hargs⟩)
      (Nat.le_refl _) (by omega) (by omega)
  · refine .inr ⟨_, _, rfl, rfl, ?_⟩
    refine (optionalExpression_paired hg "]" hc).node? fun index d hl hd hindex =>
      (rel_expectSymbol _).token fun _ e hl₁ he => ?_
    exact .fixed [some (inner, w), index] (by simp) rfl
      (by simpa using ⟨hinner, hindex.mono (by omega)⟩) (Nat.le_refl _) (by omega) (by omega)
  · exact .inr ⟨_, _, rfl, rfl,
      (member_paired hg hinner hline (Nat.le_of_lt hc)).widen (Nat.le_refl _) (Nat.le_succ _)⟩
  · exact .inr ⟨_, _, rfl, rfl, .fixed [some (inner, w)] (by simp) rfl (by simpa using hinner)
      (Nat.le_refl _) hline (Nat.lt_succ_self _)⟩
  · exact .inr ⟨_, _, rfl, rfl, .fixed [some (inner, w)] (by simp) rfl (by simpa using hinner)
      (Nat.le_refl _) hline (Nat.lt_succ_self _)⟩
  · exact .inl ⟨rfl, rfl⟩

theorem suffixesWithin_paired (hg : g.Paired k most g') {inner : Tree} {w : ν} {low : Nat}
    (hinner : low ≤ k.row inner.line) (hn : n ≤ n') (hc : c.rest.length ≤ most)
    (hroom : c.rest.length < k.limit + n) :
    k.Rel (s ++ [(inner, w)]) c (g.suffixesWithin n inner) (g'.suffixesWithin n' w)
      (k.Makes s low (c.rest.length + 1)) := by
  induction n generalizing c n' inner w with
  | zero => exact .giveUp hroom
  | succ n ih =>
      obtain ⟨n', rfl⟩ := Nat.exists_eq_add_of_le' (Nat.le_trans (Nat.succ_pos n) hn)
      have hdone : k.Rel (s ++ [(inner, w)]) c (pure inner) (pure w)
          (k.Makes s low (c.rest.length + 1)) := .pure ⟨rfl, hinner, Nat.lt_succ_self _⟩
      refine .get ?_
      cases hsymbol : c.symbol? with
      | none => exact hdone
      | some r =>
          obtain ⟨symbol, next⟩ := r
          obtain ⟨hreach, hnext⟩ := Cursor.ahead_of_symbol? hsymbol
          have hl := k.row_le hreach
          refine .lineOf (t := inner) (by simp) fun hline => ?_
          rcases suffix?_paired (s := s) (w := w) hg symbol (Nat.le_refl (k.row inner.line))
            (c := next) (by omega) (by omega) with ⟨hx, hy⟩ | ⟨x, y, hx, hy, hrel⟩
          · simp only [hx, hy]
            exact hdone
          · simp only [hx, hy]
            refine .set hreach (hrel.node fun t w₁ d hl₁ hd ht => ?_)
            exact (ih (by omega) (by omega) (by omega) (by omega)).widen (Nat.le_refl _) (by omega)

theorem postfixed_paired (hg : g.Paired k most g') (hc : c.rest.length ≤ most) :
    k.Rel s c g.postfixed g'.postfixed (k.Makes s (k.row c.position.line) c.rest.length) := by
  have hroom := hg.room
  refine (primary_paired hg hc).node fun inner w d _ hd hinner => ?_
  exact (suffixesWithin_paired hg hinner hg.bound (by omega) (by omega)).widen (Nat.le_refl _)
    (by omega)

theorem power_paired (hg : g.Paired k most g') (hc : c.rest.length ≤ most) :
    k.Rel s c g.power g'.power (k.Makes s (k.row c.position.line) c.rest.length) := by
  refine (postfixed_paired hg hc).node fun base w d hl hd hbase => .accept (fun e _ hl₁ he => ?_)
    (.pure ⟨rfl, hbase, hd⟩)
  refine .of_mem (p := (base, w)) (by simp) fun hle => ?_
  exact (hg.operand _ e (by omega)).node fun exponent w' e' hl₂ he' hexponent =>
    .lineOf (t := base) (by simp) fun hline =>
      .fixed [some (base, w), some (exponent, w')] (by simp) rfl
        (by simpa using Nat.le_trans hle hexponent) hbase hline (by omega)

theorem unary_paired (hg : g.Paired k most g') (hc : c.rest.length ≤ most) :
    k.Rel s c g.unary g'.unary (k.Makes s (k.row c.position.line) c.rest.length) := by
  refine .here fun hl hlen => ?_
  have hpower := (power_paired (s := s) hg (show c.skip.rest.length ≤ most by omega)).widen hl hlen
  refine .get ?_
  split
  · exact hpower
  · rename_i symbol next hsymbol
    obtain ⟨hreach, hnext⟩ := Cursor.ahead_of_symbol? hsymbol
    have hl₁ := k.row_le hreach
    split
    · exact hpower
    · rename_i kind hkind
      refine .set hreach ((hg.operand s next (by omega)).node fun t w d hl₂ hd ht => ?_)
      exact .fixed [some (t, w)] (by simp) (isOperation_of_leadingOperator? hkind).2.symm
        (by simpa using by omega) hl (by omega) (by omega)

/-- A node of two operands on the line of the left one, and what is done with it. -/
theorem leftOperation_paired {γ δ : Type} {f : Tree → PlainReader γ} {f' : ν → Reader m δ}
    {R : γ → δ → Owed ν → Cursor → Prop} {kind : FixedKind} {left right : Tree} {w w' : ν} {low : Nat}
    (hkind : kind.arity = 2) (hlow : low ≤ k.row left.line)
    (hright : k.row left.line ≤ k.row right.line)
    (hf : ∀ t w d, d.rest.length ≤ c.rest.length → low ≤ k.row t.line →
      k.Rel (s ++ [(t, w)]) d (f t) (f' w) R) :
    k.Rel (s ++ [(left, w)] ++ [(right, w')]) c
      (Nodes.lineOf left >>= fun line => Nodes.fixed kind [some left, some right] line >>= f)
      (Nodes.lineOf w >>= fun line => Nodes.fixed kind [some w, some w'] line >>= f') R :=
  .lineOf (t := left) (by simp) fun hline =>
    (Rel.fixed (s := s) [some (left, w), some (right, w')] (by simp) hkind.symm
      (by simpa using hright) hlow hline (Nat.lt_succ_self _)).node fun t w d _ hd ht =>
        hf t w d (Nat.le_of_lt_succ hd) ht

theorem instanceTestsWithin_paired (hg : g.Paired k most g') {left : Tree} {w : ν} {low : Nat}
    (hlow : low ≤ k.row left.line) (hn : n ≤ n') (hc : c.rest.length ≤ most)
    (hroom : c.rest.length < k.limit + n) :
    k.Rel (s ++ [(left, w)]) c (g.instanceTestsWithin n left) (g'.instanceTestsWithin n' w)
      (k.Makes s low (c.rest.length + 1)) := by
  induction n generalizing c n' left w with
  | zero => exact .giveUp hroom
  | succ n ih =>
      obtain ⟨n', rfl⟩ := Nat.exists_eq_add_of_le' (Nat.le_trans (Nat.succ_pos n) hn)
      refine .of_mem (p := (left, w)) (by simp) fun hle =>
        .acceptWord (fun d _ hl hd => ?_) (.pure ⟨rfl, hlow, Nat.lt_succ_self _⟩)
      refine (unary_paired hg (by omega)).node fun right w' e hl₁ he hright => ?_
      refine leftOperation_paired rfl hlow (Nat.le_trans (Nat.le_trans hle hl) hright)
        fun t w₁ e' he' ht => ?_
      exact (ih ht (by omega) (by omega) (by omega)).widen (Nat.le_refl _) (by omega)

theorem instanceTest_paired (hg : g.Paired k most g') (hc : c.rest.length ≤ most) :
    k.Rel s c g.instanceTest g'.instanceTest (k.Makes s (k.row c.position.line) c.rest.length) := by
  have hroom := hg.room
  refine (unary_paired hg hc).node fun left w d _ hd hleft => ?_
  exact (instanceTestsWithin_paired hg hleft hg.bound (by omega) (by omega)).widen (Nat.le_refl _)
    (by omega)

theorem binaryTailWithin_paired {operand : PlainReader Tree} {operand' : Reader m ν}
    (hoperand : ∀ s c, c.rest.length ≤ most →
      k.Rel s c operand operand' (k.Makes s (k.row c.position.line) c.rest.length))
    (level : Nat) {left : Tree} {w : ν} {low : Nat} (hlow : low ≤ k.row left.line) (hn : n ≤ n')
    (hc : c.rest.length ≤ most) (hroom : c.rest.length < k.limit + n) :
    k.Rel (s ++ [(left, w)]) c (binaryTailWithin operand level n left)
      (binaryTailWithin operand' level n' w) (k.Makes s low (c.rest.length + 1)) := by
  induction n generalizing c n' left w with
  | zero => exact .giveUp hroom
  | succ n ih =>
      obtain ⟨n', rfl⟩ := Nat.exists_eq_add_of_le' (Nat.le_trans (Nat.succ_pos n) hn)
      refine .of_mem (p := (left, w)) (by simp) fun hle => .get ?_
      split
      · exact .pure ⟨rfl, hlow, Nat.lt_succ_self _⟩
      · rename_i symbol next hsymbol
        obtain ⟨hreach, hnext⟩ := Cursor.ahead_of_symbol? hsymbol
        split
        · exact .pure ⟨rfl, hlow, Nat.lt_succ_self _⟩
        · refine .set hreach ((hoperand _ next (by omega)).node fun right w' e hl₁ he hright => ?_)
          refine leftOperation_paired rfl hlow
            (Nat.le_trans (Nat.le_trans hle (k.row_le hreach)) hright) fun t w₁ e' he' ht => ?_
          exact (ih ht (by omega) (by omega) (by omega)).widen (Nat.le_refl _) (by omega)

theorem binary_paired (hg : g.Paired k most g') (levels : Nat) (hc : c.rest.length ≤ most) :
    k.Rel s c (g.binary levels) (g'.binary levels)
      (k.Makes s (k.row c.position.line) c.rest.length) := by
  have hroom := hg.room
  induction levels generalizing s c with
  | zero => exact instanceTest_paired hg hc
  | succ levels ih =>
      refine (ih hc).node fun left w d _ hd hleft => ?_
      exact (binaryTailWithin_paired (fun _ _ h => ih h) _ hleft hg.bound (by omega)
        (by omega)).widen (Nat.le_refl _) (by omega)

theorem choice_paired (hg : g.Paired k most g') (hc : c.rest.length ≤ most) :
    k.Rel s c g.choice g'.choice (k.Makes s (k.row c.position.line) c.rest.length) := by
  refine .here fun hl hlen => (binary_paired hg _ (by omega)).node fun condition w d hl₁ hd hcondition =>
    .accept (fun e _ hl₂ he => ?_) (.pure ⟨rfl, Nat.le_trans hl hcondition, by omega⟩)
  refine (hg.expression _ e (by omega)).node fun yes w₁ e₁ hl₃ he₁ hyes =>
    (rel_expectSymbol _).token fun _ e₂ hl₄ he₂ =>
    (hg.conditional _ e₂ (by omega)).node fun no w₂ e₃ hl₅ he₃ hno => ?_
  exact .fixed [some (condition, w), some (yes, w₁), some (no, w₂)] (by simp) rfl
    (by simpa using ⟨hcondition, by omega, by omega⟩) hl (by omega) (by omega)

theorem assignment_paired (hg : g.Paired k most g') (hc : c.rest.length ≤ most) :
    k.Rel s c g.assignment g'.assignment (k.Makes s (k.row c.position.line) c.rest.length) := by
  refine .here fun hl hlen => (choice_paired hg (by omega)).node fun target w d hl₁ hd htarget =>
    .get ?_
  split
  · exact .pure ⟨rfl, Nat.le_trans hl htarget, by omega⟩
  · rename_i symbol next hsymbol
    obtain ⟨hreach, hnext⟩ := Cursor.ahead_of_symbol? hsymbol
    have hl₂ := k.row_le hreach
    split
    · exact .pure ⟨rfl, Nat.le_trans hl htarget, by omega⟩
    · rename_i kind hkind
      refine .set hreach ((hg.expression _ next (by omega)).node fun value w₁ e hl₃ he hvalue => ?_)
      exact .fixed [some (target, w), some (value, w₁)] (by simp)
        (isOperation_of_assignmentOperator? hkind).2.symm
        (by simpa using ⟨htarget, by omega⟩) hl (by omega) (by omega)

/-! ### Statements -/

theorem condition_paired (hg : g.Paired k most g') (hc : c.rest.length ≤ most) :
    k.Rel s c g.condition g'.condition (k.Makes s (k.row c.position.line) c.rest.length) :=
  (rel_expectSymbol _).token fun _ d hl hd =>
    (hg.expression s d (by omega)).node fun _ _ e _ he hlow =>
    (rel_expectSymbol _).token fun _ e' _ he' => .pure ⟨rfl, by omega, by omega⟩

theorem ifElseWithin_paired (hg : g.Paired k most g') (hline : k.row line ≤ k.row c.position.line)
    (hn : n ≤ n') (hc : c.rest.length ≤ most) (hroom : c.rest.length < k.limit + n) :
    k.Rel s c (g.ifElseWithin n line) (g'.ifElseWithin n' line)
      (k.Makes s (k.row line) c.rest.length) := by
  induction n generalizing c n' line s with
  | zero => exact .giveUp hroom
  | succ n ih =>
      obtain ⟨n', rfl⟩ := Nat.exists_eq_add_of_le' (Nat.le_trans (Nat.succ_pos n) hn)
      refine (condition_paired hg hc).node fun condition w d hl hd hcondition =>
        (hg.statement _ d (by omega)).node? fun yes e hl₁ he hyes => ?_
      have hnode (no : Option (Tree × ν)) {d' : Cursor} (hno : k.Behind (k.row line) no)
          (hl₂ : k.row e.position.line ≤ k.row d'.position.line)
          (hd' : d'.rest.length < c.rest.length) :
          k.Rel (s ++ [(condition, w)] ++ yes.toList ++ no.toList) d'
            (Nodes.fixed .ifElse [some condition, yes.map Prod.fst, no.map Prod.fst] line)
            (Nodes.fixed .ifElse [some w, yes.map Prod.snd, no.map Prod.snd] line)
            (k.Makes s (k.row line) c.rest.length) :=
        .fixed [some (condition, w), yes, no] (by simp) rfl
          (by simpa using ⟨Nat.le_trans hline hcondition, hyes.mono (by omega), hno⟩)
          (Nat.le_refl _) (by omega) hd'
      refine .acceptWord (fun e' _ hl₂ he' => .here fun hl₃ he₃ => ?_)
        (.acceptWord (fun e' _ hl₂ he' => ?_) ?_)
      · refine (ih (Nat.le_refl _) (by omega) (by omega) (by omega)).node
          fun no w' d' hl₄ hd' hno => ?_
        exact hnode (some (no, w')) (by simpa using (by omega)) (by omega) (by omega)
      · exact (hg.statement _ e' (by omega)).node? fun no d' hl₄ hd' hno =>
          hnode no (hno.mono (by omega)) (by omega) (by omega)
      · refine .pure_bind ?_
        simpa using hnode none behind_none (Nat.le_refl _) (by omega)

theorem whileLoop_paired (hg : g.Paired k most g') (hline : k.row line ≤ k.row c.position.line)
    (hc : c.rest.length ≤ most) :
    k.Rel s c (g.whileLoop line) (g'.whileLoop line) (k.Makes s (k.row line) c.rest.length) :=
  (condition_paired hg hc).node fun condition w d hl hd hcondition =>
    (hg.statement _ d (by omega)).node? fun body e hl₁ he hbody =>
    .fixed [some (condition, w), body] (by simp) rfl
      (by simpa using ⟨Nat.le_trans hline hcondition, hbody.mono (by omega)⟩) (Nat.le_refl _)
      (by omega) (by omega)

theorem forLoop_paired (hg : g.Paired k most g') (hline : k.row line ≤ k.row c.position.line)
    (hc : c.rest.length ≤ most) :
    k.Rel s c (g.forLoop line) (g'.forLoop line) (k.Makes s (k.row line) c.rest.length) :=
  (rel_expectSymbol _).token fun _ c₁ l₁ h₁ =>
    (optionalExpression_paired hg ";" (by omega)).node? fun start d₁ m₁ hd₁ hstart =>
    (rel_expectSymbol _).token fun _ c₂ l₂ h₂ =>
    (optionalExpression_paired hg ";" (by omega)).node? fun condition d₂ m₂ hd₂ hcondition =>
    (rel_expectSymbol _).token fun _ c₃ l₃ h₃ =>
    (optionalExpression_paired hg ")" (by omega)).node? fun step d₃ m₃ hd₃ hstep =>
    (rel_expectSymbol _).token fun _ c₄ l₄ h₄ =>
    (hg.statement _ c₄ (by omega)).node? fun body e l hend hbody =>
    .fixed [start, condition, step, body] (by simp) rfl
      (by simpa using ⟨hstart.mono (by omega), hcondition.mono (by omega), hstep.mono (by omega),
        hbody.mono (by omega)⟩) (Nat.le_refl _) (by omega) (by omega)

theorem returnStatement_paired (hg : g.Paired k most g')
    (hline : k.row line ≤ k.row c.position.line) (hc : c.rest.length < most) :
    k.Rel s c (g.returnStatement line) (g'.returnStatement line)
      (k.Makes s (k.row line) c.rest.length) :=
  (optionalExpression_paired hg ";" hc).node? fun value d hl hd hvalue =>
    (rel_expectSymbol _).token fun _ e hl₁ he =>
    .fixed [value] (by simp) rfl (by simpa using hvalue.mono hline) (Nat.le_refl _) (by omega)
      (by omega)

theorem echoStatement_paired (hg : g.Paired k most g') (hline : k.row line ≤ k.row c.position.line)
    (hc : c.rest.length < most) :
    k.Rel s c (g.echoStatement line) (g'.echoStatement line)
      (k.Makes s (k.row line) c.rest.length) :=
  (hg.expression s c hc).node fun value w d hl hd hvalue =>
    (rel_expectSymbol _).token fun _ e hl₁ he =>
    .fixed [some (value, w)] (by simp) rfl (by simpa using Nat.le_trans hline hvalue)
      (Nat.le_refl _) (by omega) (by omega)

theorem expressionStatement_paired (hexpression : k.Rel s c g.expression g'.expression
      (k.Makes s (k.row c.position.line) c.rest.length)) :
    k.Rel s c g.expressionStatement g'.expressionStatement
      (k.Makes s (k.row c.position.line) c.rest.length) :=
  hexpression.node fun _ _ _ _ hd hlow =>
    (rel_expectSymbol _).token fun _ _ _ he => .pure ⟨rfl, hlow, by omega⟩

theorem functionDeclaration_paired (hg : g.Paired k most g')
    (hline : k.row line ≤ k.row c.position.line) (hc : c.rest.length ≤ most) :
    k.Rel s c (g.functionDeclaration line) (g'.functionDeclaration line)
      (k.Makes s (k.row line) c.rest.length) := by
  refine identifier_paired hg fun name d hl hd _ => ?_
  refine (signature_paired hg (Nat.le_trans hline hl) (by omega)).signature
    fun params uses result e hl₁ he hparts => ?_
  refine (block_paired hg (by omega)).node fun body w e' hl₂ he' hbody => ?_
  exact .declare (some (body, w)) rfl hparts (by simpa using (by omega)) (Nat.le_refl _)
    (by omega) (by omega)

theorem modifiersWithin_paired (flags : Nat) (hn : n ≤ n') (hroom : c.rest.length < k.limit + n) :
    k.Rel s c (modifiersWithin n flags) (modifiersWithin n' flags : Reader m Nat)
      (Reads s (c.rest.length + 1)) := by
  induction n generalizing c n' flags with
  | zero => exact .giveUp hroom
  | succ n ih =>
      obtain ⟨n', rfl⟩ := Nat.exists_eq_add_of_le' (Nat.le_trans (Nat.succ_pos n) hn)
      refine .get ?_
      split
      · rename_i word next hword
        obtain ⟨hreach, hnext⟩ := Cursor.ahead_of_word? hword
        split
        · refine .set hreach ((ih _ (by omega) (by omega)).mono fun _ _ _ _ ⟨hv, hs, hd⟩ => ?_)
          exact ⟨hv, hs, by omega⟩
        · exact .pure ⟨rfl, rfl, Nat.lt_succ_self _⟩
      · exact .pure ⟨rfl, rfl, Nat.lt_succ_self _⟩

theorem modifiers_paired (hg : g.Paired k most g') (hc : c.rest.length ≤ most) :
    k.Rel s c g.modifiers g'.modifiers (Reads s (c.rest.length + 1)) :=
  modifiersWithin_paired 0 hg.bound (by have := hg.room; omega)

theorem method_paired (hg : g.Paired k most g') (hc : c.rest.length ≤ most) :
    k.Rel s c g.method g'.method (k.Makes s (k.row c.position.line) c.rest.length) := by
  refine .here fun hl hlen => (modifiers_paired hg (by omega)).token fun flags d hl₁ hd =>
    .acceptWord (fun e _ hl₂ he => ?_) (.fail_bind (by simp))
  refine identifier_paired hg fun name c₁ l₁ h₁ _ => ?_
  have hline : k.row c.skip.position.line ≤ k.row c₁.position.line := by omega
  refine (signature_paired hg hline (by omega)).signature
    fun params uses result c₂ l₂ h₂ hparts => .accept (fun c₃ _ l₃ h₃ => ?_) ?_
  · refine .pure_bind ?_
    simpa using Rel.declare (s := s) none rfl hparts behind_none hl (by omega) (by omega)
  · refine (Rel.some (block_paired hg (by omega))).node? fun body c₃ l₃ h₃ hbody => ?_
    exact .declare body rfl hparts (hbody.mono (by omega)) hl (by omega) (by omega)

theorem methodsWithin_paired (hg : g.Paired k most g') (hn : n ≤ n') (hc : c.rest.length ≤ most)
    (hroom : c.rest.length < k.limit + n) :
    k.Rel s c (g.methodsWithin n) (g'.methodsWithin n')
      (k.MakesAll s (k.row c.position.line) c.rest.length) := by
  induction n generalizing c n' s with
  | zero => exact .giveUp hroom
  | succ n ih =>
      obtain ⟨n', rfl⟩ := Nat.exists_eq_add_of_le' (Nat.le_trans (Nat.succ_pos n) hn)
      refine .accept (fun _ _ _ hd => .pure (.nil hd)) ?_
      refine (method_paired hg hc).node fun t w d hl hd hlow => ?_
      exact (ih (by omega) (by omega) (by omega)).bind fun _ _ _ _ _ _ _ hall =>
        .pure (hall.cons hlow hl (by omega))

theorem namesWithin_paired (hg : g.Paired k most g') (hn : n ≤ n')
    (hroom : c.rest.length < k.limit + n) :
    k.Rel s c (g.namesWithin n) (g'.namesWithin n')
      (k.MakesAll s (k.row c.position.line) c.rest.length) := by
  induction n generalizing c n' s with
  | zero => exact .giveUp hroom
  | succ n ih =>
      obtain ⟨n', rfl⟩ := Nat.exists_eq_add_of_le' (Nat.le_trans (Nat.succ_pos n) hn)
      refine (nameLeaf_paired hg).node fun t w d hl hd hlow =>
        .accept (fun e _ hl₁ he => ?_) (.pure (.one hlow hd))
      exact (ih (by omega) (by omega)).bind fun _ _ _ _ _ _ _ hall =>
        .pure (hall.cons hlow (by omega) (by omega))

/-- The body of a class and what the class is made of, once its name, its parent and its interfaces
have been read. -/
theorem classBody_paired (hg : g.Paired k most g') (name : String) (flags : Nat)
    {parent interfaces : Option (Tree × ν)} (hparent : k.Behind (k.row line) parent)
    (hinterfaces : k.Behind (k.row line) interfaces) (hline : k.row line ≤ k.row c.position.line)
    (hc : c.rest.length ≤ most) :
    k.Rel (s ++ parent.toList ++ interfaces.toList) c
      (do
        let bodyLine ← Reader.here
        expectSymbol "\x7b"
        let body ← Nodes.list .stmtList (← g.methodsWithin g.bound) bodyLine
        Nodes.decl .classDef name flags
          [parent.map Prod.fst, interfaces.map Prod.fst, some body] line)
      (do
        let bodyLine ← Reader.here
        expectSymbol "\x7b"
        let body ← Nodes.list .stmtList (← g'.methodsWithin g'.bound) bodyLine
        Nodes.decl .classDef name flags
          [parent.map Prod.snd, interfaces.map Prod.snd, some body] line)
      (k.Makes s (k.row line) c.rest.length) := by
  have hroom := hg.room
  refine .here fun hl hlen => (rel_expectSymbol _).token fun _ d hl₁ hd => ?_
  refine (methodsWithin_paired hg hg.bound (by omega) (by omega)).nodes fun ps e hl₂ he hps => ?_
  refine (Rel.list ps rfl (fun p hp => Nat.le_trans hl₁ (hps p hp)) (Nat.le_refl _) (by omega)
    (Nat.lt_succ_self _)).node fun body w e' hl₃ he' hbody => ?_
  exact .decl [parent, interfaces, some (body, w)] (by simp [swapLast]) rfl
    (by simpa using ⟨hparent, hinterfaces, by omega⟩) (Nat.le_refl _) (by omega) (by omega)

theorem classDeclaration_paired (hg : g.Paired k most g')
    (hline : k.row line ≤ k.row c.position.line) (hc : c.rest.length ≤ most) :
    k.Rel s c (g.classDeclaration line) (g'.classDeclaration line)
      (k.Makes s (k.row line) c.rest.length) := by
  have hroom := hg.room
  refine (modifiers_paired hg hc).token fun flags d hl hd =>
    .acceptWord (fun e _ hl₁ he => ?_) (.fail_bind (by simp))
  refine identifier_paired hg fun name c₁ l₁ h₁ _ => ?_
  refine .orNone (n := c₁.rest.length + 1)
    (fun c₂ l₂ h₂ => ((Rel.some (nameLeaf_paired hg)).mono fun _ _ _ _ h => h.mono l₂ (by omega)))
    (Nat.lt_succ_self _) fun parent c₃ l₃ h₃ hparent => ?_
  have hparent := hparent.mono (show k.row line ≤ k.row c₁.position.line by omega)
  refine .acceptWord (fun c₄ _ l₄ h₄ => ?_) ?_
  · refine (namesWithin_paired hg hg.bound (by omega)).nodes fun ps c₅ l₅ h₅ hps => ?_
    refine (Rel.some (.list ps rfl (fun p hp => ?_) (Nat.le_refl _) ?_ (Nat.lt_succ_self _))).node?
      fun interfaces c₆ l₆ h₆ hinterfaces => ?_
    · have := hps p hp
      omega
    · omega
    · exact (classBody_paired hg name flags hparent hinterfaces (by omega) (by omega)).widen (Nat.le_refl _)
        (by omega)
  · have hnone : k.Behind (k.row line) (none : Option (Tree × ν)) := behind_none
    have hbody := classBody_paired (s := s) (c := c₃) hg name flags hparent hnone (by omega)
      (by omega)
    refine .pure_bind ?_
    simpa using hbody.widen (Nat.le_refl _) (show c₃.rest.length ≤ c.rest.length by omega)

theorem plainStatement_paired (hg : g.Paired k most g') (hline : k.row line ≤ k.row c.position.line)
    (hc : c.rest.length ≤ most)
    (hexpression : k.Rel s c g.expression g'.expression
      (k.Makes s (k.row c.position.line) c.rest.length)) :
    k.Rel s c (g.plainStatement line) (g'.plainStatement line)
      (k.Makes s (k.row line) c.rest.length) := by
  have hplain := (expressionStatement_paired hexpression).widen hline (Nat.le_refl _)
  have hclass := classDeclaration_paired (s := s) hg hline hc
  refine .of_inv fun a ha => .get ?_
  split
  · exact hplain
  · rename_i word next hword
    obtain ⟨hreach, hnext⟩ := Cursor.ahead_of_word? hword
    have hroom := hg.room
    have hl := k.row_le hreach
    have hbehind {x : PlainReader Tree} {y : Reader m ν}
        (h : k.Rel s next x y (k.Makes s (k.row line) next.rest.length)) :
        k.Rel s next x y (k.Makes s (k.row line) c.rest.length) :=
      h.widen (Nat.le_refl _) (Nat.le_of_lt hnext)
    split
    · exact .set hreach (hbehind (ifElseWithin_paired hg (by omega) hg.bound (by omega) (by omega)))
    · exact .set hreach (hbehind (whileLoop_paired hg (by omega) (by omega)))
    · exact .set hreach (hbehind (forLoop_paired hg (by omega) (by omega)))
    · exact .set hreach (hbehind (returnStatement_paired hg (by omega) (by omega)))
    · exact .set hreach (hbehind (echoStatement_paired hg (by omega) (by omega)))
    · rcases hg.lookahead s c a next ha hword with heq | ⟨hno, hk, hnever⟩
      · rw [heq]
        exact .cond (fun _ => .set hreach (hbehind (functionDeclaration_paired hg (by omega)
          (by omega)))) fun _ => hplain
      · rw [if_neg (by simp [hno])]
        exact hplain.never hnever hk
    · exact hclass
    · exact hclass
    · exact hclass
    · exact hplain

/-- Only the expression that a statement consists of is read at the place where the statement
begins. -/
theorem anyStatement_paired (hg : g.Paired k most g') (hc : c.rest.length ≤ most)
    (hexpression : ∀ s c, c.rest.length ≤ most →
      k.Rel s c g.expression g'.expression (k.Makes s (k.row c.position.line) c.rest.length)) :
    k.Rel s c g.anyStatement g'.anyStatement
      (k.MakesOne? s (k.row c.position.line) c.rest.length) := by
  refine .here fun hl hlen => .accept (fun d _ _ hd => .pure (.none (by omega))) (.get ?_)
  split
  · exact (Rel.some (block_paired hg (by omega))).mono fun _ _ _ _ h => h.mono hl hlen
  · exact (Rel.some (plainStatement_paired hg (Nat.le_refl _) (by omega)
      (hexpression _ _ (by omega)))).mono fun _ _ _ _ h => h.mono hl hlen

/-! ### Programs -/

theorem programStatementsWithin_paired
    (hstatement : ∀ s c, c.rest.length ≤ most →
      k.Rel s c g.statement g'.statement (k.MakesOne? s (k.row c.position.line) c.rest.length))
    (hn : n ≤ n') (hc : c.rest.length ≤ most) (hroom : c.rest.length < k.limit + n) :
    k.Rel s c (g.programStatementsWithin n) (g'.programStatementsWithin n')
      (k.MakesAll s (k.row c.position.line) (c.rest.length + 1)) := by
  induction n generalizing c n' s with
  | zero => exact .giveUp hroom
  | succ n ih =>
      obtain ⟨n', rfl⟩ := Nat.exists_eq_add_of_le' (Nat.le_trans (Nat.succ_pos n) hn)
      refine .skip fun hl hlen => .get ?_
      split
      · exact .pure (.nil (by omega))
      · exact .pure (.nil (by omega))
      · refine (hstatement s _ (by omega)).node? fun p d hl₁ hd hp => ?_
        exact (ih (by omega) (by omega) (by omega)).bind fun _ _ _ _ _ _ _ hall =>
          .pure (hall.append (hp.mono hl) (by omega) (by omega))

theorem optionalTag_paired (tag : String) {γ δ : Type} {f : Unit → PlainReader γ}
    {f' : Unit → Reader m δ} {R : γ → δ → Owed ν → Cursor → Prop}
    (hf : ∀ d, k.row c.position.line ≤ k.row d.position.line → d.rest.length ≤ c.rest.length →
      k.Rel s d (f ()) (f' ()) R) :
    k.Rel s c (optionalTag tag >>= f) (optionalTag tag >>= f') R := by
  have hreach : c.Reaches ((c.skip.past? tag.toList).getD c.skip) := by
    cases hpast : c.skip.past? tag.toList with
    | none => exact c.reaches_skip
    | some next => exact c.reaches_skip.trans (Cursor.reaches_past? hpast)
  refine .after rfl (fun a => ?_) hreach (hf _ (k.row_le hreach) hreach.length_le)
  rw [optionalTag, run_bind_of_ok (Lawful.run_pure (c, c) a)]
  exact Lawful.run_pure _ a

/-- The list of the statements of a program is on the first line. -/
theorem program_paired (hg : g.Paired k most g')
    (hstatement : ∀ s c, c.rest.length ≤ most →
      k.Rel s c g.statement g'.statement (k.MakesOne? s (k.row c.position.line) c.rest.length))
    (hline : k.row 1 ≤ k.row c.position.line) (hc : c.rest.length ≤ most) :
    k.Rel s c g.program g'.program (k.Makes s (k.row 1) (c.rest.length + 1)) := by
  have hroom := hg.room
  refine optionalTag_paired _ fun d hl hd => ?_
  refine (programStatementsWithin_paired hstatement hg.bound (by omega) (by omega)).nodes
    fun ps e hl₁ he hps => optionalTag_paired _ fun e₁ hl₂ he₁ => .skip fun hl₃ he₂ => .get ?_
  split
  · refine .list ps rfl (fun p hp => ?_) (Nat.le_refl _) (by omega) (by omega)
    have := hps p hp
    omega
  · exact .fail (by simp)

/-! ### Grammars by depth -/

variable {sigil sigil' : Char} {bound bound' depth depth' : Nat}

/-- Twice as many levels as characters keep in step with any deeper grammar: from a statement to the
expression at its start is one level, and from there past at least one character is another. -/
theorem ofDepth_paired (hwords : SameWords k sigil sigil' bound) (hbound : bound ≤ bound')
    (hdepth : depth ≤ depth') (hmost : most < bound) (hlevels : 2 * most ≤ depth) :
    (ofDepth sigil bound depth).Paired k most (ofDepth sigil' bound' depth') := by
  induction depth using Nat.strongRecOn generalizing depth' most with
  | _ depth ih =>
  -- The parts that do not begin with a nested one need one level, as deep as they may lie.
  have hbehind {n n' : Nat} {c : Cursor} (hn : n < depth) (hn' : n ≤ n')
      (hc : c.rest.length < bound) (hlevels : 2 * c.rest.length ≤ n) :
      (ofDepth sigil bound n).Paired k c.rest.length (ofDepth sigil' bound' n') :=
    ih n hn hn' hc hlevels
  refine ⟨by simpa using hbound, by simpa using hmost, by simpa using hwords.identifiers,
    hwords.lookahead depth bound' depth', fun s c hc => ?_, fun s c hc => ?_, fun s c hc => ?_,
    fun s c hc => ?_⟩
  all_goals
    obtain ⟨n, rfl⟩ := Nat.exists_eq_add_of_le' (show 1 ≤ depth by omega)
    obtain ⟨n', rfl⟩ := Nat.exists_eq_add_of_le' (show 1 ≤ depth' by omega)
    have hg := hbehind (c := c) (Nat.lt_succ_self n) (show n ≤ n' by omega) (by omega) (by omega)
  · exact assignment_paired hg (Nat.le_refl _)
  · exact choice_paired hg (Nat.le_refl _)
  · exact unary_paired hg (Nat.le_refl _)
  · refine anyStatement_paired hg (Nat.le_refl _) fun s d hd => ?_
    obtain ⟨m, rfl⟩ := Nat.exists_eq_add_of_le' (show 1 ≤ n by omega)
    obtain ⟨m', rfl⟩ := Nat.exists_eq_add_of_le' (show 1 ≤ n' by omega)
    exact assignment_paired (hbehind (by omega) (by omega) (by omega) (by omega)) (Nat.le_refl _)

theorem ofDepth_expression_paired (hwords : SameWords k sigil sigil' bound) (hbound : bound ≤ bound')
    (hdepth : depth ≤ depth') (hc : c.rest.length < bound) (hlevels : 2 * c.rest.length + 1 ≤ depth) :
    k.Rel s c (ofDepth sigil bound depth).expression
      (ofDepth sigil' bound' depth').expression (k.Makes s (k.row c.position.line) c.rest.length) := by
  obtain ⟨n, rfl⟩ := Nat.exists_eq_add_of_le' (show 1 ≤ depth by omega)
  obtain ⟨n', rfl⟩ := Nat.exists_eq_add_of_le' (show 1 ≤ depth' by omega)
  exact assignment_paired (ofDepth_paired hwords hbound (by omega) hc (by omega)) (Nat.le_refl _)

theorem ofDepth_statement_paired (hwords : SameWords k sigil sigil' bound) (hbound : bound ≤ bound')
    (hdepth : depth ≤ depth') (hc : c.rest.length < bound) (hlevels : 2 * c.rest.length + 2 ≤ depth) :
    k.Rel s c (ofDepth sigil bound depth).statement
      (ofDepth sigil' bound' depth').statement
      (k.MakesOne? s (k.row c.position.line) c.rest.length) := by
  obtain ⟨n, rfl⟩ := Nat.exists_eq_add_of_le' (show 1 ≤ depth by omega)
  obtain ⟨n', rfl⟩ := Nat.exists_eq_add_of_le' (show 1 ≤ depth' by omega)
  exact anyStatement_paired (ofDepth_paired hwords hbound (by omega) hc (by omega)) (Nat.le_refl _)
    fun _ d hd => ofDepth_expression_paired hwords hbound (by omega) (by omega) (by omega)

/-- Programs under the grammars for a text of their length and for any longer text. -/
theorem ofLength_program_paired {length : Nat} (hwords : SameWords k sigil sigil' (c.rest.length + 1))
    (hline : k.row 1 ≤ k.row c.position.line) (hlength : c.rest.length ≤ length) :
    k.Rel s c (ofLength sigil c.rest.length).program (ofLength sigil' length).program
      (k.Makes s (k.row 1) (c.rest.length + 1)) :=
  program_paired (ofDepth_paired hwords (by omega) (by omega) (Nat.lt_succ_self _) (by omega))
    (fun _ _ hc => ofDepth_statement_paired hwords (by omega) (by omega) (by omega) (by omega)) hline
    (Nat.le_refl _)

end Grammar

end SnippetRewrite
