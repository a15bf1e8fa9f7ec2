import Mathlib.Data.List.Chain
import SnippetRewrite.Proofs.Parse.Storing
import SnippetRewrite.Proofs.Parse.TreePairing

/-!
The reader of programs comes to an end on every text. Its loops are bounded by the length of the text
and its nesting by a depth, so that each of its functions is total; what has to be shown is that
neither bound is ever what stops it. The measure is the number of characters left, and behind it the
order of the parts of an expression: a part either begins with the next one at the same place, or goes
on behind at least one character.
-/

namespace SnippetRewrite

namespace Reader

variable {α : Type} {x : PlainReader α} {c : Cursor} {most n : Nat}

/-- Each round of a loop takes at least one character or is the last one: where so many rounds are
not enough, at least so many characters have been read. -/
def Rounds (most : Nat) (loop : Nat → PlainReader α) : Prop :=
  ∀ c rounds failure, c.rest.length ≤ most →
    loop rounds c = .error failure → failure.cause = .nesting →
    failure.place.rest <:+ c.rest ∧ failure.place.rest.length + rounds ≤ c.rest.length

def Shortens (most : Nat) (x : PlainReader α) : Prop :=
  ∀ c v d, c.rest.length ≤ most → x c = .ok (v, d) →
    d.rest <:+ c.rest ∧ d.rest.length < c.rest.length

/-- A reader that gives up unless fewer than so many characters are left. -/
def below (most : Nat) (x : PlainReader α) : PlainReader α :=
  fun c => if c.rest.length < most then x c else fail .nesting c

/-- Begun at one place, a reader gives up further on with fewer than `limit` characters left, or it
ends as another reader does; then it has moved forward, and fewer than `n` characters are left. -/
structure Paced (limit n : Nat) (c : Cursor) (x y : PlainReader α) : Prop where
  ok : ∀ v d, x c = .ok (v, d) → y c = .ok (v, d) ∧ c.Reaches d ∧ d.rest.length < n
  error : ∀ f, x c = .error f → f.cause ≠ .nesting → y c = .error f
  gives : ∀ f, x c = .error f → f.cause = .nesting →
    c.Reaches f.place ∧ f.place.rest.length < limit

/-- A reader that does not give up ends as the other one. -/
theorem Paced.eq (h : Paced 0 n c x y) : x c = y c := by
  cases hx : x c with
  | ok r => exact (h.ok _ _ hx).1.symm
  | error f =>
      by_cases hf : f.cause = .nesting
      · exact absurd (h.gives f hx hf).2 (Nat.not_lt_zero _)
      · exact (h.error f hx hf).symm

theorem Rounds.of_paced {loop : Nat → PlainReader α} {k : Cursor → Nat}
    (h : ∀ c limit rounds, c.rest.length ≤ most → c.rest.length < limit + rounds →
      Paced limit (k c) c (loop rounds) (loop rounds)) : Rounds most loop := by
  intro c rounds failure hc hloop hcause
  obtain ⟨hreach, hlt⟩ :=
    (h c (c.rest.length + 1 - rounds) rounds hc (by omega)).gives failure hloop hcause
  exact ⟨hreach.suffix, by omega⟩

theorem Shortens.of_paced
    (h : ∀ c, c.rest.length ≤ most → Paced 0 c.rest.length c x x) : Shortens most x := by
  intro c v d hc hx
  obtain ⟨-, hreach, hlt⟩ := (h c hc).ok v d hx
  exact ⟨hreach.suffix, hlt⟩

end Reader

namespace Pairing

open Reader

variable {α : Type} {x y : PlainReader α} {c : Cursor} {limit n low : Nat} {s owed : Owed Tree}

/-- Readers of trees in step, of which the first may give up with less than so much of the text left. -/
abbrev paced (limit : Nat) : Pairing (Except SyntaxFailure) Tree :=
  Following.nothing.pairing True limit

/-- Of two readers in step the first keeps pace if what they hand back is the same. -/
theorem Rel.paced {Q : α → α → Owed Tree → Cursor → Prop} (h : (paced limit).Rel owed c x y Q)
    (howed : ∀ p ∈ owed, p.2 = p.1)
    (hQ : ∀ v w s' d, (∀ p ∈ s', p.2 = p.1) → Q v w s' d → w = v ∧ d.rest.length < n) :
    Reader.Paced limit n c x y := by
  have hinv : (Pairing.paced limit).Inv owed c () := ⟨trivial, fun p hp => ⟨howed p hp, trivial⟩⟩
  refine ⟨fun v d hx => ?_, fun f hx hcause => (Following.error_of_rel h hinv hx).2.2 hcause trivial,
    fun f hx hcause => ?_⟩
  · obtain ⟨hd, w, s', hy, hs', hQ'⟩ := Following.ok_of_rel h hinv hx
    obtain ⟨rfl, hlt⟩ := hQ v w s' d (fun p hp => (hs'.2 p hp).1) hQ'
    exact ⟨hy, hd, hlt⟩
  · obtain ⟨hplace, hlimit, -⟩ := Following.error_of_rel h hinv hx
    exact ⟨hplace, hlimit hcause⟩

theorem Rel.reads (h : (Pairing.paced limit).Rel [] c x y (Reads [] n)) : Reader.Paced limit n c x y :=
  Rel.paced h (by simp) fun _ _ _ _ _ h => ⟨h.1, h.2.2⟩

theorem Rel.makes {x y : PlainReader Tree}
    (h : (Pairing.paced limit).Rel owed c x y ((Pairing.paced limit).Makes s low n))
    (howed : ∀ p ∈ owed, p.2 = p.1) : Reader.Paced limit n c x y := by
  refine Rel.paced h howed fun t w s' d hs' ⟨hs, _, hd⟩ => ⟨hs' (t, w) (by simp [hs]), hd⟩

theorem Rel.makesOne? {x y : PlainReader (Option Tree)}
    (h : (Pairing.paced limit).Rel [] c x y ((Pairing.paced limit).MakesOne? [] low n)) :
    Reader.Paced limit n c x y := by
  refine Rel.paced h (by simp) fun _ _ _ d hs' ⟨p, ht, hw, hs, _, hd⟩ => ⟨?_, hd⟩
  subst ht hw hs
  cases p with
  | none => rfl
  | some p => exact congrArg Option.some (hs' p (by simp))

theorem Rel.makesAll {x y : PlainReader (List Tree)}
    (h : (Pairing.paced limit).Rel [] c x y ((Pairing.paced limit).MakesAll [] low n)) :
    Reader.Paced limit n c x y := by
  refine Rel.paced h (by simp) fun _ _ _ d hs' ⟨ps, ht, hw, hs, _, hd⟩ => ⟨?_, hd⟩
  subst ht hw hs
  exact List.map_congr_left fun p hp => hs' p (by simpa using hp)

theorem Rel.below {most : Nat} {Q : α → α → Owed Tree → Cursor → Prop} (hc : c.rest.length < most)
    (h : (Pairing.paced limit).Rel s c x y Q) :
    (Pairing.paced limit).Rel s c (Reader.below most x) y Q := by
  have hbelow : Reader.below most x c = x c := if_pos hc
  intro a ha
  rw [hbelow]
  exact h a ha

end Pairing

namespace Grammar

open Reader Pairing

variable {g : TreeGrammar} {c : Cursor} {most : Nat} {sigil : Char}

/-- The grammar whose nested parts give up unless fewer than so many characters are left; the
expression has a bound of its own. -/
def below (g : TreeGrammar) (reach most : Nat) : TreeGrammar :=
  { g with
    expression := g.expression.below reach
    conditional := g.conditional.below most
    operand := g.operand.below most
    statement := g.statement.below most }

/-- A part of the grammar reads nested parts only behind the place where it begins, with less of the
text left; only the expression it may read `early`, with that many characters more. So it does not
tell whether they give up elsewhere, and does not give up itself. -/
def Descends (g : TreeGrammar) (most early : Nat) {α : Type} (part : TreeGrammar → PlainReader α) : Prop :=
  ∀ c, c.rest.length ≤ most →
    part (g.below (c.rest.length + early) c.rest.length) c = part g c ∧
    ∀ failure, part g c = .error failure → failure.cause ≠ .nesting

/-- How a part of an expression begins: with the next part, at the same place. -/
inductive LeadsTo (g : TreeGrammar) (part next : TreeGrammar → PlainReader Tree) : Prop where
  | directly (rest : Tree → PlainReader Tree) (h : part g = next g >>= rest)
  /-- Behind separators, and what follows is on a known line. -/
  | onLine (rest : Nat → Tree → PlainReader Tree)
      (h : part g = Reader.here >>= fun line => next g >>= rest line)
  /-- Unless an operator of at least one character stands there; behind it is an operand. -/
  | operator (h : ∀ c, part g c = next g c.skip ∨
      ∃ kind d, d.rest.length < c.rest.length ∧
        part g c = (g.operand >>= fun operand =>
          pure (.fixed kind [some operand] c.skip.position.line)) d)

/-- The parts of an expression from the binary operators of so many levels on. -/
def chainFrom : Nat → List (TreeGrammar → PlainReader Tree)
  | 0 => [instanceTest, unary, power, postfixed, primary]
  | levels + 1 => (fun g => g.binary (levels + 1)) :: chainFrom levels

/-- The parts of an expression, from the loosest binding to the tightest. -/
def chain : List (TreeGrammar → PlainReader Tree) :=
  assignment :: choice :: chainFrom binaryLevels

/-- Each round of each loop takes at least one character or is the last one. -/
structure LoopsAdvance (g : TreeGrammar) (most : Nat) : Prop where
  programStatements : Rounds most g.programStatementsWithin
  blockStatements : Rounds most g.blockStatementsWithin
  expressions : ∀ close, Rounds most (itemsWithin close g.expression)
  params : ∀ close, Rounds most (itemsWithin close g.param)
  capturedVariables : ∀ close, Rounds most (itemsWithin close g.capturedVariable)
  modifiers : ∀ flags, Rounds most fun rounds => modifiersWithin rounds flags
  names : Rounds most g.namesWithin
  methods : Rounds most g.methodsWithin
  operators : ∀ levels level left,
    Rounds most fun rounds => binaryTailWithin (g.binary levels) level rounds left
  instanceTests : ∀ left, Rounds most fun rounds => g.instanceTestsWithin rounds left
  suffixes : ∀ inner, Rounds most fun rounds => g.suffixesWithin rounds inner
  branches : ∀ line, Rounds most fun rounds => g.ifElseWithin rounds line

/-- Whatever is read as a statement, an expression, a parameter or a method takes at least one
character; so does every part of an expression. -/
structure PartsShorten (g : TreeGrammar) (most : Nat) : Prop where
  statement : Shortens most g.statement
  expression : Shortens most g.expression
  param : Shortens most g.param
  method : Shortens most g.method
  operations : ∀ part ∈ chain, Shortens most (part g)

/-- Nested parts are read with less of the text left, but for the expression that a statement
consists of; and each part of an expression leads to the next one. -/
structure CallsDescend (g : TreeGrammar) (most : Nat) : Prop where
  statement : g.Descends most 1 anyStatement
  block : g.Descends most 0 block
  param : g.Descends most 0 param
  method : g.Descends most 0 method
  operations : ∀ part ∈ chain, g.Descends most 0 part
  leads : chain.IsChain g.LeadsTo

/-! ### Loops -/

theorem ofLength_paced (limit : Nat) (sigil : Char) (length : Nat) :
    (ofLength sigil length : TreeGrammar).Paired (paced limit) length (ofLength sigil length) :=
  ofDepth_paired (.same fun _ => trivial) (Nat.le_refl _) (Nat.le_refl _) (Nat.lt_succ_self _)
    (by omega)

section

variable {length limit : Nat} {s : Owed Tree}

theorem ofLength_expression_paced (hc : c.rest.length ≤ length) :
    (paced limit).Rel s c (ofLength sigil length).expression (ofLength sigil length).expression
      ((paced limit).Makes s 0 c.rest.length) :=
  ofDepth_expression_paired (.same fun _ => trivial) (Nat.le_refl _) (Nat.le_refl _) (by omega)
    (by omega)

theorem ofLength_statement_paced (hc : c.rest.length ≤ length) :
    (paced limit).Rel s c (ofLength sigil length).statement (ofLength sigil length).statement
      ((paced limit).MakesOne? s 0 c.rest.length) :=
  ofDepth_statement_paired (.same fun _ => trivial) (Nat.le_refl _) (Nat.le_refl _) (by omega)
    (by omega)

end

theorem loopsAdvance_ofLength (sigil : Char) (length : Nat) :
    (ofLength sigil length).LoopsAdvance length := by
  have hg (limit : Nat) := ofLength_paced limit sigil length
  have hitems {item : PlainReader Tree} (close : String)
      (hitem : ∀ limit s c, c.rest.length ≤ length →
        (paced limit).Rel s c item item ((paced limit).Makes s 0 c.rest.length)) :
      Rounds length (itemsWithin close item) :=
    .of_paced fun c limit rounds hc hroom => (itemsWithin_paired (k := paced limit)
      (fun s d hd => hitem limit s d (Nat.le_of_lt_succ hd)) close (Nat.le_refl _)
      (Nat.lt_succ_of_le hc) hroom).makesAll
  exact {
    programStatements := .of_paced fun _ _ _ hc hroom => (programStatementsWithin_paired
      (fun _ _ => ofLength_statement_paced) (Nat.le_refl _) hc hroom).makesAll
    blockStatements := .of_paced fun c limit _ hc hroom =>
      (blockStatementsWithin_paired (k := paced limit)
        (fun _ _ hd => ofLength_statement_paced (Nat.le_of_lt_succ hd)) (Nat.le_refl _)
        (Nat.lt_succ_of_le hc) hroom).makesAll
    expressions := fun close => hitems close fun _ _ _ => ofLength_expression_paced
    params := fun close => hitems close fun limit _ _ => param_paired (hg limit)
    capturedVariables := fun close => hitems close fun limit _ _ _ =>
      capturedVariable_paired (hg limit)
    modifiers := fun flags => .of_paced fun _ limit _ _ hroom =>
      (modifiersWithin_paired (k := paced limit) flags (Nat.le_refl _) hroom).reads
    names := .of_paced fun _ limit _ _ hroom =>
      (namesWithin_paired (hg limit) (Nat.le_refl _) hroom).makesAll
    methods := .of_paced fun _ limit _ hc hroom =>
      (methodsWithin_paired (hg limit) (Nat.le_refl _) hc hroom).makesAll
    operators := fun levels level left => .of_paced fun _ limit _ hc hroom =>
      (binaryTailWithin_paired (s := []) (w := left) (fun _ _ => binary_paired (hg limit) levels)
        level (Nat.zero_le _) (Nat.le_refl _) hc hroom).makes (by simp)
    instanceTests := fun left => .of_paced fun _ limit _ hc hroom =>
      (instanceTestsWithin_paired (s := []) (w := left) (hg limit) (Nat.zero_le _) (Nat.le_refl _) hc
        hroom).makes (by simp)
    suffixes := fun inner => .of_paced fun _ limit _ hc hroom =>
      (suffixesWithin_paired (s := []) (w := inner) (hg limit) (Nat.zero_le _) (Nat.le_refl _) hc
        hroom).makes (by simp)
    branches := fun line => .of_paced fun c limit _ hc hroom =>
      have hline : (paced limit).row line ≤ (paced limit).row c.position.line := Nat.le_refl _
      (ifElseWithin_paired (s := []) (hg limit) hline (Nat.le_refl _) hc hroom).makes (by simp) }

/-! ### Parts -/

section

variable {g' : TreeGrammar} {part : TreeGrammar → PlainReader Tree} {levels : Nat} {s : Owed Tree}

theorem chainFrom_paced (hpart : part ∈ chainFrom levels) (hg : g.Paired (paced 0) most g')
    (hc : c.rest.length ≤ most) :
    (paced 0).Rel s c (part g) (part g') ((paced 0).Makes s 0 c.rest.length) := by
  induction levels with
  | zero =>
      simp only [chainFrom, List.mem_cons, List.not_mem_nil, or_false] at hpart
      rcases hpart with rfl | rfl | rfl | rfl | rfl
      · exact instanceTest_paired hg hc
      · exact unary_paired hg hc
      · exact power_paired hg hc
      · exact postfixed_paired hg hc
      · exact primary_paired hg hc
  | succ levels ih =>
      rcases List.mem_cons.mp hpart with rfl | hpart
      · exact binary_paired hg (levels + 1) hc
      · exact ih hpart

theorem chain_paced (hpart : part ∈ chain) (hg : g.Paired (paced 0) most g')
    (hc : c.rest.length ≤ most) :
    (paced 0).Rel s c (part g) (part g') ((paced 0).Makes s 0 c.rest.length) := by
  rcases List.mem_cons.mp hpart with rfl | hpart
  · exact assignment_paired hg hc
  · rcases List.mem_cons.mp hpart with rfl | hpart
    · exact choice_paired hg hc
    · exact chainFrom_paced hpart hg hc

end

theorem partsShorten_ofLength (sigil : Char) (length : Nat) :
    (ofLength sigil length).PartsShorten length := by
  have hg := ofLength_paced 0 sigil length
  exact {
    statement := .of_paced fun _ hc => (ofLength_statement_paced hc).makesOne?
    expression := .of_paced fun _ hc => (ofLength_expression_paced (s := []) hc).makes (by simp)
    param := .of_paced fun _ hc => (param_paired (s := []) hg hc).makes (by simp)
    method := .of_paced fun _ hc => (method_paired (s := []) hg hc).makes (by simp)
    operations := fun _ hpart => .of_paced fun _ hc =>
      (chain_paced (s := []) hpart hg hc).makes (by simp) }

/-! ### Nested parts -/

theorem below_paced (hg : g.Paired (paced 0) most g) (early : Nat) (hc : c.rest.length ≤ most) :
    (g.below (c.rest.length + early) c.rest.length).Paired (paced 0) c.rest.length g where
  bound := Nat.le_refl _
  room := Nat.lt_of_le_of_lt hc hg.room
  identifiers := hg.identifiers
  lookahead _ _ _ _ _ _ := .inl rfl
  expression s d hd := .below (by omega) (hg.expression s d (by omega))
  conditional s d hd := .below hd (hg.conditional s d (by omega))
  operand s d hd := .below hd (hg.operand s d (by omega))
  statement s d hd := .below hd (hg.statement s d (by omega))

theorem Descends.of_paced {early : Nat} {α : Type} {part : TreeGrammar → PlainReader α} {k : Cursor → Nat}
    (h : ∀ c, c.rest.length ≤ most → Reader.Paced 0 (k c) c
      (part (g.below (c.rest.length + early) c.rest.length)) (part g)) :
    g.Descends most early part := by
  intro c hc
  have hpaced := h c hc
  refine ⟨hpaced.eq, fun failure hfailure hcause => ?_⟩
  rw [← hpaced.eq] at hfailure
  exact Nat.not_lt_zero _ (hpaced.gives failure hfailure hcause).2

theorem leadsTo_power (g : TreeGrammar) : g.LeadsTo unary power := by
  refine .operator fun c => ?_
  cases hsymbol : c.skip.symbol? with
  | none => exact .inl (by simp [unary, here_bind_apply, hsymbol])
  | some r =>
      obtain ⟨symbol, next⟩ := r
      obtain ⟨-, hnext⟩ := Cursor.ahead_of_symbol? hsymbol
      cases hkind : leadingOperator? symbol with
      | none => exact .inl (by simp [unary, here_bind_apply, hsymbol, hkind])
      | some kind =>
          refine .inr ⟨kind, next, Nat.lt_of_lt_of_le hnext c.length_skip_le, ?_⟩
          simp [unary, here_bind_apply, hsymbol, hkind]

theorem isChain_chainFrom {part : TreeGrammar → PlainReader Tree} {levels : Nat}
    (h : g.LeadsTo part fun g => g.binary levels) :
    List.IsChain g.LeadsTo (part :: chainFrom levels) := by
  induction levels generalizing part with
  | zero =>
      exact .cons_cons h <| .cons_cons (.directly _ rfl) <| .cons_cons g.leadsTo_power <|
        .cons_cons (.directly _ rfl) <| .cons_cons (.directly _ rfl) <| .singleton _
  | succ levels ih => exact .cons_cons h (ih (.directly _ rfl))

theorem isChain_chain (g : TreeGrammar) : chain.IsChain g.LeadsTo :=
  .cons_cons (.onLine _ rfl) (isChain_chainFrom (.onLine _ rfl))

theorem callsDescend_ofLength (sigil : Char) (length : Nat) :
    (ofLength sigil length).CallsDescend length := by
  have hg := ofLength_paced 0 sigil length
  exact {
    statement := .of_paced fun _ hc => (anyStatement_paired (below_paced hg 1 hc) (Nat.le_refl _)
      fun _ d hd => .below (Nat.lt_succ_of_le hd)
        (ofLength_expression_paced (Nat.le_trans hd hc))).makesOne?
    block := .of_paced fun _ hc =>
      (block_paired (s := []) (below_paced hg 0 hc) (Nat.le_refl _)).makes (by simp)
    param := .of_paced fun _ hc =>
      (param_paired (s := []) (below_paced hg 0 hc) (Nat.le_refl _)).makes (by simp)
    method := .of_paced fun _ hc =>
      (method_paired (s := []) (below_paced hg 0 hc) (Nat.le_refl _)).makes (by simp)
    operations := fun _ hpart => .of_paced fun _ hc =>
      (chain_paced (s := []) hpart (below_paced hg 0 hc) (Nat.le_refl _)).makes (by simp)
    leads := isChain_chain _ }

end Grammar

/-- The reader comes to an end on every source text, under every sigil: it answers with a program or
with an error, and never because of the bounds on its loops and its nesting, so that with any larger
bounds it answers the same. Each round of its loops takes at least one character or is the last one.
A statement, an expression, a parameter and a method leave strictly less of the text. The nested
parts of every part are read with strictly less of the text left, except for the expression that a
statement consists of; and each part of an expression, in the order from the loosest binding to the
tightest, begins with the next one at the same place, or with an operator. -/
theorem parseUnit_terminates (sigil : Char) (source origin : String) :
    ((∃ t, readProgram sigil source.toList = .ok t ∧
        parseUnit sigil source origin = .ok (Arena.ofTree origin t)) ∨
      (∃ failure, readProgram sigil source.toList = .error failure ∧ failure.cause ≠ .nesting ∧
        parseUnit sigil source origin = .error (failure.report origin))) ∧
    (∀ bound depth, source.toList.length < bound → 2 * source.toList.length + 2 ≤ depth →
      ((Grammar.ofDepth sigil bound depth : TreeGrammar).program (Cursor.start source.toList)).map (·.1) =
        readProgram sigil source.toList) ∧
    (Grammar.ofLength sigil source.toList.length : TreeGrammar).LoopsAdvance source.toList.length ∧
    (Grammar.ofLength sigil source.toList.length : TreeGrammar).PartsShorten source.toList.length ∧
    (Grammar.ofLength sigil source.toList.length : TreeGrammar).CallsDescend source.toList.length := by
  refine ⟨?_, fun bound depth hbound hdepth => ?_, Grammar.loopsAdvance_ofLength _ _,
    Grammar.partsShorten_ofLength _ _, Grammar.callsDescend_ofLength _ _⟩
  · rcases exists_storing sigil source origin with ⟨t, -, -, hread, -, -, -⟩ | hfailure
    · exact .inl ⟨t, hread, by rw [parseUnit_eq, hread]⟩
    · exact .inr hfailure
  · have hpaced : Reader.Paced 0 (source.toList.length + 1) (Cursor.start source.toList)
        (Grammar.ofLength sigil source.toList.length).program
        (Grammar.ofDepth sigil bound depth).program :=
      Pairing.Rel.makes (s := []) (Grammar.program_paired (c := Cursor.start source.toList)
        (Grammar.ofDepth_paired (.same fun _ => trivial) hbound hdepth
          (Nat.lt_succ_self source.toList.length) (by omega))
        (fun _ _ hc => Grammar.ofDepth_statement_paired (.same fun _ => trivial) hbound hdepth
          (Nat.lt_succ_of_le hc) (by omega)) (Nat.le_refl _) (Nat.le_refl _)) (by simp)
    rw [readProgram, hpaced.eq]

/-- A call that breaks off in a comment. It is refused, and reading its arguments one by one takes
at least one character for each. -/
theorem parseUnit_terminates_openComment :
    parseUnit defaultSigil "f(a, /* b" "unit" =
        .error ⟨"unit", 1, 6, "expected expression near `/* b`"⟩ ∧
      (∃ failure, readProgram defaultSigil "f(a, /* b".toList = .error failure ∧
        failure.cause ≠ .nesting) ∧
      Grammar.itemsWithin ")" (Grammar.ofLength defaultSigil 9 : TreeGrammar).expression 1
          ⟨"a, /* b".toList, ⟨1, 3⟩⟩ = .error ⟨.nesting, ⟨" /* b".toList, ⟨1, 5⟩⟩⟩ ∧
      " /* b".length + 1 ≤ "a, /* b".length := by
  have hparse : parseUnit defaultSigil "f(a, /* b" "unit" =
      .error ⟨"unit", 1, 6, "expected expression near `/* b`"⟩ := by decide +kernel
  have hround : Grammar.itemsWithin ")" (Grammar.ofLength defaultSigil 9 : TreeGrammar).expression 1
      ⟨"a, /* b".toList, ⟨1, 3⟩⟩ = .error ⟨.nesting, ⟨" /* b".toList, ⟨1, 5⟩⟩⟩ := by decide +kernel
  obtain ⟨hends, -, hloops, -, -⟩ := parseUnit_terminates defaultSigil "f(a, /* b" "unit"
  refine ⟨hparse, ?_, hround, (hloops.expressions ")" _ 1 _ (by decide) hround rfl).2⟩
  rcases hends with ⟨t, -, hok⟩ | ⟨failure, hread, hcause, -⟩
  · cases hparse.symm.trans hok
  · exact ⟨failure, hread, hcause⟩

end SnippetRewrite
