import SnippetRewrite.Proofs.Parse.Atom
import SnippetRewrite.Proofs.Parse.Carried

/-!
How far the readers of the grammar look ahead. Each reader, from tokens up to statements, does on a
text what it does on a longer one, and a statement never ends where the longer text might go on with
it: it has a last token of its own, and what comes behind that is looked at for the alternative of an
`if` only.
-/

namespace SnippetRewrite

def Signature.moved (k : Nat) (s : Signature Tree) : Signature Tree :=
  ⟨s.params.moved k, s.uses.map (Tree.moved k), s.result.map (Tree.moved k)⟩

@[simp] theorem Signature.slots_moved (k : Nat) (s : Signature Tree) (body : Option Tree) :
    (s.slots body).map (Option.map (Tree.moved k)) = (s.moved k).slots (body.map (Tree.moved k)) :=
  rfl

namespace Grammar

open Reader

variable {e : Excerpt} {g g' : TreeGrammar} {c d next : Cursor} {line n n' : Nat}

/-- Grammars whose readers of nested parts do the same on a text and on a longer one. -/
structure Carries (e : Excerpt) (g g' : TreeGrammar) : Prop where
  bound : g.bound ≤ g'.bound
  sigil : g'.sigil = g.sigil
  not_star : g.sigil ≠ '*'
  not_slash : g.sigil ≠ '/'
  expression : Reader.Carries e .extensible (Tree.moved e.lines) g.expression g'.expression
  conditional : Reader.Carries e .extensible (Tree.moved e.lines) g.conditional g'.conditional
  operand : Reader.Carries e .extensible (Tree.moved e.lines) g.operand g'.operand
  statement : Reader.Carries e .closed (Option.map (Tree.moved e.lines)) g.statement g'.statement
  closure : g.expression.Needs OpensClosure

theorem Carries.identifier (hg : g.Carries e g') :
    Reader.Carries e .closed id g.identifier g'.identifier := by
  rw [Grammar.identifier, Grammar.identifier, hg.sigil]
  exact carries_identifier e hg.not_slash

theorem exists_succ_of_lt (h : n + 1 ≤ n') : ∃ m, n' = m + 1 ∧ n ≤ m :=
  ⟨n' - 1, by omega, by omega⟩

/-! ### Lists and blocks -/

theorem nameLeaf_carries (hg : g.Carries e g') :
    Reader.Carries e .closed (Tree.moved e.lines) g.nameLeaf g'.nameLeaf :=
  (carries_here e).bind .closed (fun _ => hg.identifier.finish fun _ => by simp) rfl

theorem itemsWithin_carries {item item' : PlainReader Tree}
    (h : Reader.Carries e .extensible (Tree.moved e.lines) item item') {close : String}
    (hclose : close ≠ "/") (hn : n ≤ n') :
    Reader.Carries e .closed (List.map (Tree.moved e.lines)) (itemsWithin close item n)
      (itemsWithin close item' n') := by
  induction n generalizing n' with
  | zero => exact .fail _
  | succ n ih =>
      obtain ⟨n', rfl, hle⟩ := exists_succ_of_lt hn
      refine .accept .idle .closed hclose (.pure rfl) ?_ rfl
      refine h.bind .closed (fun first => .accept .closed .closed (by decide) ?_ ?_ rfl) rfl
      · exact (ih hle).finish fun _ => rfl
      · exact (carries_expectSymbol e hclose).finish fun _ => rfl

theorem items_carries (hg : g.Carries e g') {item item' : PlainReader Tree}
    (h : Reader.Carries e .extensible (Tree.moved e.lines) item item') {close : String}
    (hclose : close ≠ "/") :
    Reader.Carries e .closed (List.map (Tree.moved e.lines)) (g.items close item)
      (g'.items close item') :=
  itemsWithin_carries h hclose hg.bound

theorem optionalExpression_carries (hg : g.Carries e g') (stop : String) :
    Reader.Carries e .optional (Option.map (Tree.moved e.lines)) (g.optionalExpression stop)
      (g'.optionalExpression stop) :=
  (carries_peekSymbol e stop).bind .optional
    (fun _ => .cond (.mono (.pure rfl) rfl) (hg.expression.some.mono rfl)) rfl

theorem blockStatementsWithin_carries (hg : g.Carries e g') (hn : n ≤ n') :
    Reader.Carries e .closed (List.map (Tree.moved e.lines)) (g.blockStatementsWithin n)
      (g'.blockStatementsWithin n') := by
  induction n generalizing n' with
  | zero => exact .fail _
  | succ n ih =>
      obtain ⟨n', rfl, hle⟩ := exists_succ_of_lt hn
      have hnext : Reader.Carries e .closed (List.map (Tree.moved e.lines))
          (g.statement >>= fun first => g.blockStatementsWithin n >>= fun rest =>
            pure (first.toList ++ rest))
          (g'.statement >>= fun first => g'.blockStatementsWithin n' >>= fun rest =>
            pure (first.toList ++ rest)) := by
        refine hg.statement.bind .closed (fun first => (ih hle).finish fun rest => ?_) rfl
        cases first <;> simp
      refine (carries_skip e).bind .closed (fun _ => ?_) rfl
      refine .byCharacter (by decide) hnext (fun c hc => .get ?_) (fun c d h hc hd => .get ?_)
        fun c d ch cs h _ _ hc hd => .get ?_
      · split
        · exact fun _ _ hv => nomatch hv
        · exact absurd (hc _ _ ‹_›) (by decide)
        · exact fun _ _ hv => hv
      · rw [hc]
        exact fun _ _ hv => nomatch hv
      · rw [hc, hd]
        by_cases hch : ch = '\x7d'
        · subst hch
          exact .pure h rfl
        · split
          · contradiction
          · exact absurd (List.cons.inj ‹_›).1 hch
          split
          · contradiction
          · exact absurd (List.cons.inj ‹_›).1 hch
          exact hnext.linked c d h

theorem block_carries (hg : g.Carries e g') :
    Reader.Carries e .closed (Tree.moved e.lines) g.block g'.block := by
  refine (carries_here e).bind .closed (fun line => ?_) rfl
  refine (carries_expectSymbol e (by decide)).bind .closed (fun _ => ?_) rfl
  refine (blockStatementsWithin_carries hg hg.bound).bind .closed (fun statements => ?_) rfl
  exact (carries_expectSymbol e (by decide)).finish fun _ => by simp

/-! ### Signatures -/

theorem param_carries (hg : g.Carries e g') :
    Reader.Carries e .extensible (Tree.moved e.lines) g.param g'.param := by
  refine (carries_here e).bind .extensible (fun line => ?_) rfl
  refine hg.identifier.bind .optional 
    (fun name => .pure_bind (Tree.moved e.lines) (by simp) ?_) rfl
  refine .accept .extensible .idle (by decide) ?_
    (.pure_bind (Option.map (Tree.moved e.lines)) rfl (.pure (by simp))) rfl
  exact hg.conditional.some.finish fun _ => by simp

theorem capturedVariable_carries (hg : g.Carries e g') :
    Reader.Carries e .closed (Tree.moved e.lines) g.capturedVariable g'.capturedVariable :=
  (carries_here e).bind .closed (fun _ => hg.identifier.finish fun _ => by simp) rfl

theorem uses_carries (hg : g.Carries e g') (line : Nat) :
    Reader.Carries e .optional (Option.map (Tree.moved e.lines)) (g.uses line)
      (g'.uses (line + e.lines)) := by
  refine .acceptWord .closed .idle ?_ (.pure rfl) rfl
  refine (carries_expectSymbol e (by decide)).bind .closed (fun _ => ?_) rfl
  have hitem := (capturedVariable_carries hg).mono (l := .extensible) rfl
  exact (items_carries hg hitem (by decide)).finish fun _ => by simp

theorem resultType_carries (hg : g.Carries e g') :
    Reader.Carries e .optional (Option.map (Tree.moved e.lines)) g.resultType g'.resultType := by
  refine .accept .closed .idle (by decide) ?_ (.pure rfl) rfl
  refine (carries_here e).bind .closed (fun line => ?_) rfl
  refine .accept .closed .closed (by decide) ?_ ?_ rfl
  · exact hg.identifier.finish fun _ => by simp
  · exact hg.identifier.finish fun _ => by simp

theorem signature_carries (hg : g.Carries e g') (line : Nat) :
    Reader.Carries e .extensible (Signature.moved e.lines) (g.signature line)
      (g'.signature (line + e.lines)) := by
  refine (carries_expectSymbol e (by decide)).bind .extensible (fun _ => ?_) rfl
  refine (items_carries hg (param_carries hg) (by decide)).bind .optional
    (fun params => .pure_bind (Tree.moved e.lines) (by simp) ?_) rfl
  refine (uses_carries hg line).bind .optional (fun uses => ?_) rfl
  exact (resultType_carries hg).finish fun result => by simp [Signature.moved]

/-! ### Expressions -/

theorem arguments_carries (hg : g.Carries e g') (line : Nat) :
    Reader.Carries e .closed (Tree.moved e.lines) (g.arguments line) (g'.arguments (line + e.lines)) :=
  (items_carries hg hg.expression (by decide)).finish fun _ => by simp

theorem newObject_carries (hg : g.Carries e g') (line : Nat) :
    Reader.Carries e .extensible (Tree.moved e.lines) (g.newObject line)
      (g'.newObject (line + e.lines)) := by
  refine (nameLeaf_carries hg).bind .optional (fun name => ?_) rfl
  refine .accept .closed .idle (by decide) ?_ ?_ rfl
  · exact (arguments_carries hg line).finish fun _ => by simp
  · exact .pure (by simp)

theorem closure_carries (hg : g.Carries e g') (line : Nat) :
    Reader.Carries e .closed (Tree.moved e.lines) (g.closure line) (g'.closure (line + e.lines)) :=
  (signature_carries hg line).bind .closed
    (fun _ => (block_carries hg).finish fun _ => by simp) rfl

theorem array_carries (hg : g.Carries e g') {close : String} (hclose : close ≠ "/") (line : Nat) :
    Reader.Carries e .closed (Tree.moved e.lines) (g.array close line)
      (g'.array close (line + e.lines)) :=
  (items_carries hg hg.expression hclose).finish fun _ => by simp

theorem reference_eq_ok {r : Tree × Cursor} : g.reference line c = .ok r ↔
    (g.identifier >>= fun text => peekSymbol "(" >>= fun called =>
      pure (if called then Tree.name text line else .var text line)) c = .ok r := by
  rw [reference, get_bind_apply, bind_apply]
  cases hread : (Reader.identifier g.sigil : PlainReader String) c with
  | error failure =>
      rw [show g.identifier c = .error failure from hread]
      constructor <;> intro h <;> cases h
  | ok r =>
      obtain ⟨text, next⟩ := r
      rw [show g.identifier c = .ok (text, next) from hread]
      change (if (next.pastSymbol? "(").isSome then Nodes.name text line else Nodes.var text line :
        PlainReader Tree) next = _ ↔ (pure _ : PlainReader Tree) next = _
      cases (next.pastSymbol? "(").isSome <;> exact Iff.rfl

theorem reference_carries (hg : g.Carries e g') (line : Nat) :
    Reader.Carries e .extensible (Tree.moved e.lines) (g.reference line)
      (g'.reference (line + e.lines)) := by
  refine .of_ok ?_ (fun _ _ => reference_eq_ok.mp) fun _ _ => reference_eq_ok.mpr
  refine hg.identifier.bind .optional (fun text => ?_) rfl
  exact (carries_peekSymbol e "(").finish fun called => by cases called <;> simp

theorem worded_carries (hg : g.Carries e g') (line : Nat) :
    Reader.Carries e .extensible (Tree.moved e.lines) (g.worded line) (g'.worded (line + e.lines)) := by
  have href := reference_carries hg line
  refine .byWord (by decide) href (fun c h => ?_) (fun d h => ?_)
    fun word c d next next' h hnext hc hd => ?_
  · rw [worded, get_bind_apply, h]
  · rw [worded, get_bind_apply, h]
  refine .get ?_
  simp only [hc, hd]
  split
  · exact .set (.pure hnext (by simp))
  · split
    · exact .set ((newObject_carries hg line).linked next next' hnext)
    · exact .set (((closure_carries hg line).mono rfl).linked next next' hnext)
    · by_cases hs : e.Stuck next
      · rw [hs.pastSymbol? (by decide)]
        rintro t behind ht
        obtain ⟨text, hid, -⟩ := reference_ok ht
        obtain ⟨-, rfl⟩ := identifier_eq_word hid hc
        exact .inl hs
      by_cases he : e.Ended next
      · rw [he.pastSymbol?]
        rintro t behind ht
        obtain ⟨text, hid, -⟩ := reference_ok ht
        obtain ⟨-, rfl⟩ := identifier_eq_word hid hc
        exact .inr (.inl ⟨rfl, he⟩)
      have hpast := hnext.pastSymbol? he hs "("
      generalize next.pastSymbol? "(" = o, next'.pastSymbol? "(" = o' at hpast ⊢
      cases hpast with
      | none => exact href.linked c d h
      | some hbehind =>
          exact .set (((array_carries hg (by decide) line).mono rfl).linked _ _ hbehind)
    · exact href.linked c d h

theorem startsToken_of_isDigit {ch : Char} (h : ch.isDigit = true) : startsToken ch = true := by
  have hblank : ∀ d ∈ [' ', '\t', '\r', '\n', '/', '#'], d.isDigit = false :=
    List.all_iff_forall_prop.mp (by decide)
  exact (startsToken_or ch).resolve_right fun hmem => by simp [hblank ch hmem] at h

theorem primary_carries (hg : g.Carries e g') :
    Reader.Carries e .extensible (Tree.moved e.lines) g.primary g'.primary := by
  refine (carries_here e).bind .extensible (fun line => ?_) rfl
  have hworded := worded_carries hg line
  have hbrackets : Reader.Carries e .extensible (Tree.moved e.lines)
      (acceptSymbol "(" >>= fun paren => if paren then
        g.expression >>= fun inner => expectSymbol ")" >>= fun _ => pure inner
      else acceptSymbol "[" >>= fun bracket => if bracket then g.array "]" line else g.worded line)
      (acceptSymbol "(" >>= fun paren => if paren then
        g'.expression >>= fun inner => expectSymbol ")" >>= fun _ => pure inner
      else acceptSymbol "[" >>= fun bracket => if bracket then g'.array "]" (line + e.lines)
        else g'.worded (line + e.lines)) := by
    refine .accept .closed .extensible (by decide) ?_ ?_ rfl
    · refine hg.expression.bind .closed (fun inner => ?_) rfl
      exact (carries_expectSymbol e (by decide)).finish fun _ => rfl
    · exact .accept .closed .extensible (by decide) (array_carries hg (by decide) line) hworded rfl
  refine .byCharacter (by decide) hbrackets (fun c hc => .get ?_) (fun c d h hc hd => .get ?_)
    fun c d ch cs h he hs hc hd => .get ?_
  · split
    · rename_i hrest
      have hno (symbol : String) : (acceptSymbol symbol : PlainReader Bool) c = .ok (false, c) := by
        refine acceptSymbol_not fun cs hsymbol => ?_
        rw [hrest] at hsymbol
        cases hsymbol
      intro v d hv
      rw [bind_ok (hno "("), if_neg Bool.false_ne_true, bind_ok (hno "["), if_neg Bool.false_ne_true]
      exact hv
    · rename_i ch cs hrest
      have hch := hc ch cs hrest
      have hdigit : ch.isDigit = false := by
        refine Bool.eq_false_iff.mpr fun hdigit => ?_
        rw [startsToken_of_isDigit hdigit] at hch
        cases hch
      rw [hdigit, if_neg Bool.false_ne_true, if_neg (by rintro (rfl | rfl) <;> cases hch)]
      exact fun _ _ hv => hv
  · rw [hc, hd]
    exact hworded.linked c d h
  · rw [hc, hd]
    dsimp only
    split
    · exact ((carriesFrom_number h he hs).finish fun _ => by simp).mono (by decide)
    split
    · rename_i hquote
      have hskip : c.skip.rest ≠ [] := by
        rw [skip_eq_self hc (by rcases hquote with rfl | rfl <;> rfl), hc]
        exact List.cons_ne_nil _ _
      exact ((carriesFrom_string h he hs hskip).finish fun _ => by simp).mono (by decide)
    · exact hbrackets.linked c d h

theorem member_carries (hg : g.Carries e g') (object : Tree) (line : Nat) :
    Reader.Carries e .extensible (Tree.moved e.lines) (g.member object line)
      (g'.member (object.moved e.lines) (line + e.lines)) := by
  refine (nameLeaf_carries hg).bind .optional (fun name => ?_) rfl
  refine .accept .closed .idle (by decide) ?_ (.pure (by simp)) rfl
  exact (arguments_carries hg line).finish fun _ => by simp

/-- What may follow an expression is the same for both grammars. -/
theorem suffix?_carries (hg : g.Carries e g') (symbol : String) (inner : Tree) (line : Nat) :
    (g.suffix? symbol inner line = none ∧
        g'.suffix? symbol (inner.moved e.lines) (line + e.lines) = none) ∨
      ∃ x x', g.suffix? symbol inner line = some x ∧
        g'.suffix? symbol (inner.moved e.lines) (line + e.lines) = some x' ∧
        Reader.Carries e .optional (Tree.moved e.lines) x x' := by
  simp only [suffix?]
  split
  · exact .inr ⟨_, _, rfl, rfl,
      ((arguments_carries hg line).finish fun _ => by simp).mono rfl⟩
  · refine .inr ⟨_, _, rfl, rfl, .mono (k := .closed) ?_ rfl⟩
    refine (optionalExpression_carries hg _).bind .closed (fun index => ?_) rfl
    exact (carries_expectSymbol e (by decide)).finish fun _ => by simp
  · exact .inr ⟨_, _, rfl, rfl, (member_carries hg inner line).mono rfl⟩
  · exact .inr ⟨_, _, rfl, rfl, .mono (.pure (by simp)) rfl⟩
  · exact .inr ⟨_, _, rfl, rfl, .mono (.pure (by simp)) rfl⟩
  · exact .inl ⟨rfl, rfl⟩

theorem suffixesWithin_carries (hg : g.Carries e g') (hn : n ≤ n') (inner : Tree) :
    Reader.Carries e .optional (Tree.moved e.lines) (g.suffixesWithin n inner)
      (g'.suffixesWithin n' (inner.moved e.lines)) := by
  induction n generalizing n' inner with
  | zero => exact .fail _
  | succ n ih =>
      obtain ⟨n', rfl, hle⟩ := exists_succ_of_lt hn
      have hstop : Reader.Carries e .optional (Tree.moved e.lines) (pure inner)
          (pure (inner.moved e.lines)) := .mono (.pure rfl) rfl
      refine .bySymbol id hstop (fun c h => ?_) (fun d h => ?_) (fun c _ _ h _ r hr => ?_)
        fun symbol c d next next' h hnext hc hd => ?_
      · rw [suffixesWithin, get_bind_apply, h]
      · rw [suffixesWithin, get_bind_apply, h]
      · rw [suffixesWithin, get_bind_apply, h] at hr
        exact hr
      refine .get ?_
      simp only [hc, hd, lineOf_tree, pure_bind, Tree.line_moved]
      rcases suffix?_carries hg symbol inner inner.line with ⟨hx, hx'⟩ | ⟨x, x', hx, hx', hsuffix⟩
      · rw [hx, hx']
        exact hstop.linked c d h
      · rw [hx, hx']
        exact .set ((hsuffix.bind .optional (fun v => ih hle v) rfl).linked next next' hnext)

theorem postfixed_carries (hg : g.Carries e g') :
    Reader.Carries e .extensible (Tree.moved e.lines) g.postfixed g'.postfixed :=
  (primary_carries hg).bind .optional (fun inner => suffixesWithin_carries hg hg.bound inner) rfl

theorem power_carries (hg : g.Carries e g') :
    Reader.Carries e .extensible (Tree.moved e.lines) g.power g'.power := by
  refine (postfixed_carries hg).bind .optional (fun base => ?_) rfl
  refine .accept .extensible .idle (by decide) ?_ (.pure rfl) rfl
  exact hg.operand.finish fun _ => by simp

theorem unary_carries (hg : g.Carries e g') :
    Reader.Carries e .extensible (Tree.moved e.lines) g.unary g'.unary := by
  have hpower := power_carries hg
  refine (carries_here e).bind .extensible (fun line => ?_) rfl
  refine .bySymbol (by decide) hpower (fun c h => ?_) (fun d h => ?_) (fun c _ _ h _ r hr => ?_)
    fun symbol c d next next' h hnext hc hd => ?_
  · rw [get_bind_apply, h]
  · rw [get_bind_apply, h]
  · rw [get_bind_apply, h] at hr
    exact hr
  refine .get ?_
  simp only [hc, hd]
  cases leadingOperator? symbol with
  | none => exact hpower.linked c d h
  | some kind =>
      exact .set ((hg.operand.finish (fun _ => by simp)).linked next next' hnext)

theorem instanceTestsWithin_carries (hg : g.Carries e g') (hn : n ≤ n') (left : Tree) :
    Reader.Carries e .optional (Tree.moved e.lines) (g.instanceTestsWithin n left)
      (g'.instanceTestsWithin n' (left.moved e.lines)) := by
  induction n generalizing n' left with
  | zero => exact .fail _
  | succ n ih =>
      obtain ⟨n', rfl, hle⟩ := exists_succ_of_lt hn
      refine .acceptWord .extensible .idle ?_ (.pure rfl) rfl
      refine (unary_carries hg).bind .optional (fun right => ?_) rfl
      have hstep := ih hle (.fixed .instanceTest [some left, some right] left.line)
      simpa using hstep

theorem instanceTest_carries (hg : g.Carries e g') :
    Reader.Carries e .extensible (Tree.moved e.lines) g.instanceTest g'.instanceTest :=
  (unary_carries hg).bind .optional (fun left => instanceTestsWithin_carries hg hg.bound left) rfl

/-- No operand is read behind the slash of a comment that is not closed. -/
theorem binaryTailWithin_carries (hg : g.Carries e g') {operand operand' : PlainReader Tree}
    (hoperand : Reader.Carries e .extensible (Tree.moved e.lines) operand operand')
    (hneeds : operand.Needs g.AtExpression) (level : Nat) (hn : n ≤ n') (left : Tree) :
    Reader.Carries e .optional (Tree.moved e.lines) (binaryTailWithin operand level n left)
      (binaryTailWithin operand' level n' (left.moved e.lines)) := by
  induction n generalizing n' left with
  | zero => exact .fail _
  | succ n ih =>
      obtain ⟨n', rfl, hle⟩ := exists_succ_of_lt hn
      have hstop : Reader.Carries e .optional (Tree.moved e.lines) (pure left)
          (pure (left.moved e.lines)) := .mono (.pure rfl) rfl
      refine .bySymbol id hstop (fun c h => ?_) (fun d h => ?_) (fun c next inner h hrest r hr => ?_)
        fun symbol c d next next' h hnext hc hd => ?_
      · rw [binaryTailWithin, get_bind_apply, h]
      · rw [binaryTailWithin, get_bind_apply, h]
      · rw [binaryTailWithin, get_bind_apply, h] at hr
        cases hop : binaryOperator? level "/" with
        | none =>
            simp only [hop] at hr
            exact hr
        | some op =>
            simp only [hop] at hr
            rw [set_bind_apply] at hr
            obtain ⟨right, d, hright, -⟩ := of_bind_ok hr
            exact absurd hrest (not_star_of_atExpression hg.not_star (hneeds next _ hright) inner)
      refine .get ?_
      simp only [hc, hd]
      cases binaryOperator? level symbol with
      | none => exact hstop.linked c d h
      | some op =>
          refine .set ((hoperand.bind .optional (fun right => ?_) rfl).linked next next' hnext)
          have hstep := ih hle (.fixed (.binary op) [some left, some right] left.line)
          simpa using hstep

theorem binary_carries (hg : g.Carries e g') (levels : Nat) :
    Reader.Carries e .extensible (Tree.moved e.lines) (g.binary levels) (g'.binary levels) := by
  induction levels with
  | zero => exact instanceTest_carries hg
  | succ levels ih =>
      exact ih.bind .optional (fun left => binaryTailWithin_carries hg ih
        (binary_needs (unary_atExpression g) levels) _ hg.bound left) rfl

theorem choice_carries (hg : g.Carries e g') :
    Reader.Carries e .extensible (Tree.moved e.lines) g.choice g'.choice := by
  refine (carries_here e).bind .extensible (fun line => ?_) rfl
  refine (binary_carries hg _).bind .optional (fun condition => ?_) rfl
  refine .accept .extensible .idle (by decide) ?_ (.pure rfl) rfl
  refine hg.expression.bind .extensible (fun yes => ?_) rfl
  refine (carries_expectSymbol e (by decide)).bind .extensible (fun _ => ?_) rfl
  exact hg.conditional.finish fun no => by simp

theorem assignment_carries (hg : g.Carries e g') :
    Reader.Carries e .extensible (Tree.moved e.lines) g.assignment g'.assignment := by
  refine (carries_here e).bind .extensible (fun line => ?_) rfl
  refine (choice_carries hg).bind .optional (fun target => ?_) rfl
  have hstop : Reader.Carries e .optional (Tree.moved e.lines) (pure target)
      (pure (target.moved e.lines)) := .mono (.pure rfl) rfl
  refine .bySymbol id hstop (fun c h => ?_) (fun d h => ?_) (fun c _ _ h _ r hr => ?_)
    fun symbol c d next next' h hnext hc hd => ?_
  · rw [get_bind_apply, h]
  · rw [get_bind_apply, h]
  · rw [get_bind_apply, h] at hr
    exact hr
  refine .get ?_
  simp only [hc, hd]
  cases assignmentOperator? symbol with
  | none => exact hstop.linked c d h
  | some kind =>
      exact .set ((hg.expression.finish (fun _ => by simp)).linked next next' hnext)

/-! ### Statements -/

theorem condition_carries (hg : g.Carries e g') :
    Reader.Carries e .closed (Tree.moved e.lines) g.condition g'.condition := by
  refine (carries_expectSymbol e (by decide)).bind .closed (fun _ => ?_) rfl
  refine hg.expression.bind .closed (fun condition => ?_) rfl
  exact (carries_expectSymbol e (by decide)).finish fun _ => rfl

theorem ifElseWithin_carries (hg : g.Carries e g') (hn : n ≤ n') (line : Nat) :
    Reader.Carries e .closed (Tree.moved e.lines) (g.ifElseWithin n line)
      (g'.ifElseWithin n' (line + e.lines)) := by
  induction n generalizing n' line with
  | zero => exact .fail _
  | succ n ih =>
      obtain ⟨n', rfl, hle⟩ := exists_succ_of_lt hn
      refine (condition_carries hg).bind .closed (fun condition => ?_) rfl
      refine hg.statement.bind .idle (fun yes => ?_) rfl
      refine .acceptElse .closed (by decide) rfl ?_ ?_
      · refine (carries_here e).bind .closed (fun line => ?_) rfl
        exact (ih hle line).finish fun no => by simp
      · refine .acceptElse .closed (by decide) rfl ?_ (.pure (by simp))
        exact hg.statement.finish fun no => by simp

theorem whileLoop_carries (hg : g.Carries e g') (line : Nat) :
    Reader.Carries e .closed (Tree.moved e.lines) (g.whileLoop line) (g'.whileLoop (line + e.lines)) :=
  (condition_carries hg).bind .closed
    (fun _ => hg.statement.finish fun _ => by simp) rfl

theorem forLoop_carries (hg : g.Carries e g') (line : Nat) :
    Reader.Carries e .closed (Tree.moved e.lines) (g.forLoop line) (g'.forLoop (line + e.lines)) := by
  have hexpect {symbol : String} (hslash : symbol ≠ "/") := carries_expectSymbol e hslash
  refine (hexpect (by decide)).bind .closed (fun _ => ?_) rfl
  refine (optionalExpression_carries hg ";").bind .closed (fun start => ?_) rfl
  refine (hexpect (by decide)).bind .closed (fun _ => ?_) rfl
  refine (optionalExpression_carries hg ";").bind .closed (fun condition => ?_) rfl
  refine (hexpect (by decide)).bind .closed (fun _ => ?_) rfl
  refine (optionalExpression_carries hg ")").bind .closed (fun step => ?_) rfl
  refine (hexpect (by decide)).bind .closed (fun _ => ?_) rfl
  exact hg.statement.finish fun body => by simp

theorem returnStatement_carries (hg : g.Carries e g') (line : Nat) :
    Reader.Carries e .closed (Tree.moved e.lines) (g.returnStatement line)
      (g'.returnStatement (line + e.lines)) :=
  (optionalExpression_carries hg ";").bind .closed
    (fun _ => (carries_expectSymbol e (by decide)).finish fun _ => by simp) rfl

theorem echoStatement_carries (hg : g.Carries e g') (line : Nat) :
    Reader.Carries e .closed (Tree.moved e.lines) (g.echoStatement line)
      (g'.echoStatement (line + e.lines)) :=
  hg.expression.bind .closed
    (fun _ => (carries_expectSymbol e (by decide)).finish fun _ => by simp) rfl

theorem expressionStatement_carries (hg : g.Carries e g') :
    Reader.Carries e .closed (Tree.moved e.lines) g.expressionStatement g'.expressionStatement :=
  hg.expression.bind .closed
    (fun _ => (carries_expectSymbol e (by decide)).finish fun _ => rfl) rfl

theorem functionDeclaration_carries (hg : g.Carries e g') (line : Nat) :
    Reader.Carries e .closed (Tree.moved e.lines) (g.functionDeclaration line)
      (g'.functionDeclaration (line + e.lines)) := by
  refine hg.identifier.bind .closed (fun name => ?_) rfl
  refine (signature_carries hg line).bind .closed (fun signature => ?_) rfl
  exact (block_carries hg).finish fun body => by simp

theorem modifiersWithin_carries (e : Excerpt) (hn : n ≤ n') (flags : Nat) :
    Reader.Carries e .optional id (modifiersWithin n flags) (modifiersWithin n' flags) := by
  induction n generalizing n' flags with
  | zero => exact .fail _
  | succ n ih =>
      obtain ⟨n', rfl, hle⟩ := exists_succ_of_lt hn
      have hstop : Reader.Carries e .optional id (pure flags) (pure flags) := .mono (.pure rfl) rfl
      refine .byWord id hstop (fun c h => ?_) (fun d h => ?_)
        fun word c d next next' h hnext hc hd => ?_
      · rw [modifiersWithin, get_bind_apply, h]
      · rw [modifiersWithin, get_bind_apply, h]
      refine .get ?_
      simp only [hc, hd]
      cases modifierBit? word with
      | none => exact hstop.linked c d h
      | some bit => exact .set ((ih hle _).linked next next' hnext)

theorem method_carries (hg : g.Carries e g') :
    Reader.Carries e .closed (Tree.moved e.lines) g.method g'.method := by
  refine (carries_here e).bind .closed (fun line => ?_) rfl
  refine (modifiersWithin_carries e hg.bound 0).bind .closed (fun flags => ?_) rfl
  refine .acceptWord .closed .closed ?_ (.of_fails fun _ _ h => nomatch h) rfl
  refine hg.identifier.bind .closed (fun name => ?_) rfl
  refine (signature_carries hg line).bind .closed (fun signature => ?_) rfl
  refine .accept .idle .closed (by decide) (.pure (by simp)) ?_ rfl
  exact (block_carries hg).some.finish fun body => by simp

theorem methodsWithin_carries (hg : g.Carries e g') (hn : n ≤ n') :
    Reader.Carries e .closed (List.map (Tree.moved e.lines)) (g.methodsWithin n)
      (g'.methodsWithin n') := by
  induction n generalizing n' with
  | zero => exact .fail _
  | succ n ih =>
      obtain ⟨n', rfl, hle⟩ := exists_succ_of_lt hn
      refine .accept .idle .closed (by decide) (.pure rfl) ?_ rfl
      exact (method_carries hg).bind .closed (fun first => (ih hle).finish fun _ => rfl) rfl

theorem namesWithin_carries (hg : g.Carries e g') (hn : n ≤ n') :
    Reader.Carries e .extensible (List.map (Tree.moved e.lines)) (g.namesWithin n)
      (g'.namesWithin n') := by
  induction n generalizing n' with
  | zero => exact .fail _
  | succ n ih =>
      obtain ⟨n', rfl, hle⟩ := exists_succ_of_lt hn
      refine (nameLeaf_carries hg).bind .optional (fun first => ?_) rfl
      exact .accept .extensible .idle (by decide) ((ih hle).finish fun _ => rfl) (.pure rfl) rfl

theorem classDeclaration_carries (hg : g.Carries e g') (line : Nat) :
    Reader.Carries e .closed (Tree.moved e.lines) (g.classDeclaration line)
      (g'.classDeclaration (line + e.lines)) := by
  refine (modifiersWithin_carries e hg.bound 0).bind .closed (fun flags => ?_) rfl
  refine .acceptWord .closed .closed ?_ (.of_fails fun _ _ h => nomatch h) rfl
  refine hg.identifier.bind .closed (fun name => ?_) rfl
  have hbody (parent interfaces : Option Tree) : Reader.Carries e .closed (Tree.moved e.lines)
      (here >>= fun bodyLine => expectSymbol "\x7b" >>= fun _ =>
        g.methodsWithin g.bound >>= fun methods =>
          pure (.node line (.decl .classDef name flags)
            [parent, interfaces, some (.list .stmtList methods bodyLine)]))
      (here >>= fun bodyLine => expectSymbol "\x7b" >>= fun _ =>
        g'.methodsWithin g'.bound >>= fun methods =>
          pure (.node (line + e.lines) (.decl .classDef name flags)
            [parent.map (Tree.moved e.lines), interfaces.map (Tree.moved e.lines),
              some (.list .stmtList methods bodyLine)])) := by
    refine (carries_here e).bind .closed (fun bodyLine => ?_) rfl
    refine (carries_expectSymbol e (by decide)).bind .closed (fun _ => ?_) rfl
    exact (methodsWithin_carries hg hg.bound).finish fun methods => by simp
  refine .choose (nameLeaf_carries hg).some (.pure rfl) fun parent => ?_
  refine .acceptWord .closed .closed ?_ (hbody parent none) rfl
  refine (namesWithin_carries hg hg.bound).bind .closed (fun names => ?_) rfl
  exact .pure_bind (Option.map (Tree.moved e.lines))
    (v := some (Tree.list .nameList names line)) (by simp) (hbody parent _)

theorem peekIdentifier_links (hg : g.Carries e g') (h : e.Links c d) (he : ¬e.Ended c)
    (hs : ¬e.Stuck c) : g'.peekIdentifier d = g.peekIdentifier c := by
  rw [peekIdentifier, peekIdentifier, hg.sigil]
  rcases links_identifier g.sigil h he hs with ⟨_, _, hc, hd⟩ | ⟨_, _, _, hc, hd, -⟩
  · rw [hc, hd]
    rfl
  · rw [hc, hd]
    rfl

/-- Where the keyword of a function is at the end of a text, no closure is read, for which a
parenthesis must come next. -/
theorem expressionStatement_fails (hg : g.Carries e g') (hword : c.word? = some ("function", next))
    (hend : e.Ended next ∨ e.Stuck next) : ∀ r, g.expressionStatement c ≠ .ok r := by
  rintro ⟨t, d⟩ h
  obtain ⟨v, d, hv, -⟩ := of_bind_ok h
  obtain ⟨behind, hparen⟩ := hg.closure c (v, d) hv next hword
  rcases hend with hended | hstuck
  · rw [hended.symbol?] at hparen
    cases hparen
  · obtain ⟨_, _, hslash, -⟩ := hstuck.symbol?
    rw [hslash] at hparen
    simp at hparen

theorem plainStatement_carries (hg : g.Carries e g') (line : Nat) :
    Reader.Carries e .closed (Tree.moved e.lines) (g.plainStatement line)
      (g'.plainStatement (line + e.lines)) := by
  have hexpression := expressionStatement_carries hg
  have hclass := classDeclaration_carries hg line
  have hfunction := functionDeclaration_carries hg line
  refine .byWord (by decide) hexpression (fun c h => ?_) (fun d h => ?_)
    fun word c d next next' h hnext hc hd => ?_
  · rw [plainStatement, get_bind_apply, h]
  · rw [plainStatement, get_bind_apply, h]
  refine .get ?_
  simp only [hc, hd]
  split
  · exact .set ((ifElseWithin_carries hg hg.bound line).linked next next' hnext)
  · exact .set ((whileLoop_carries hg line).linked next next' hnext)
  · exact .set ((forLoop_carries hg line).linked next next' hnext)
  · exact .set ((returnStatement_carries hg line).linked next next' hnext)
  · exact .set ((echoStatement_carries hg line).linked next next' hnext)
  · by_cases hs : e.Stuck next
    · split
      · exact fun v c' hv => .inl (hfunction.stuck next hs v c' hv)
      · exact fun v c' hv => absurd hv (expressionStatement_fails hg hc (.inr hs) _)
    by_cases he : e.Ended next
    · split
      · exact fun v c' hv => absurd (hfunction.ended next he v c' hv).1 Bool.false_ne_true
      · exact fun v c' hv => absurd hv (expressionStatement_fails hg hc (.inl he) _)
    · rw [peekIdentifier_links hg hnext he hs]
      split
      · exact .set (hfunction.linked next next' hnext)
      · exact hexpression.linked c d h
  · exact hclass.linked c d h
  · exact hclass.linked c d h
  · exact hclass.linked c d h
  · exact hexpression.linked c d h

theorem anyStatement_carries (hg : g.Carries e g') :
    Reader.Carries e .closed (Option.map (Tree.moved e.lines)) g.anyStatement g'.anyStatement := by
  refine (carries_here e).bind .closed (fun line => ?_) rfl
  refine .accept .idle .closed (by decide) (.pure rfl) ?_ rfl
  have hplain := (plainStatement_carries hg line).some
  refine .byCharacter (by decide) hplain (fun c hc => .get ?_) (fun c d h hc hd => .get ?_)
    fun c d ch cs h _ _ hc hd => .get ?_
  · split
    · exact absurd (hc _ _ ‹_›) (by decide)
    · exact fun _ _ hv => hv
  · rw [hc, hd]
    exact hplain.linked c d h
  · rw [hc, hd]
    by_cases hch : ch = '\x7b'
    · subst hch
      exact (block_carries hg).some.linked c d h
    · split
      · exact absurd (List.cons.inj ‹_›).1 hch
      split
      · exact absurd (List.cons.inj ‹_›).1 hch
      exact hplain.linked c d h

/-- With more fuel, and texts nested deeper, the same is read. -/
theorem ofDepth_carries (e : Excerpt) {sigil : Char} (hstar : sigil ≠ '*') (hslash : sigil ≠ '/')
    {bound bound' depth depth' : Nat} (hbound : bound ≤ bound') (hdepth : depth ≤ depth') :
    (ofDepth sigil bound depth).Carries e (ofDepth sigil bound' depth') := by
  induction depth generalizing depth' with
  | zero =>
      exact
        { bound := by simpa using hbound
          sigil := by simp
          not_star := hstar
          not_slash := hslash
          expression := .fail _
          conditional := .fail _
          operand := .fail _
          statement := .fail _
          closure := fun _ _ h => nomatch h }
  | succ depth ih =>
      obtain ⟨depth', rfl, hle⟩ := exists_succ_of_lt hdepth
      have hg := ih hle
      exact
        { bound := hbound
          sigil := rfl
          not_star := hstar
          not_slash := hslash
          expression := assignment_carries hg
          conditional := choice_carries hg
          operand := unary_carries hg
          statement := anyStatement_carries hg
          closure := assignment_needs opensClosure_skip (unary_opensClosure _) }

end Grammar

end SnippetRewrite
