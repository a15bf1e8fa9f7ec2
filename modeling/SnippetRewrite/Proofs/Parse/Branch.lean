import SnippetRewrite.Proofs.Parse.Statement
import SnippetRewrite.Proofs.Syntax.Layout

/-!
Texts of branches. Control structures end with the statements that they control, so the text of one
that takes an `else` is extended by an `else` that is written behind it. Texts of statements are
therefore kept with how they are made: an `else` behind such a text goes down the branches to the
last `if` that has none.
-/

namespace SnippetRewrite

variable {x y z more cs : List Char} {t u condition last : Tree} {o yes body : Option Tree}
  {c : Cursor} {bound depth line : Nat}

/-! ### Conditions and what they control -/

theorem condition_takes (h : Legible Strength.assignment x t)
    (hc : c.rest = ' ' :: '(' :: (x ++ ')' :: more)) (hdepth : x.length < depth)
    (hbound : (x ++ ')' :: more).length < bound) :
    (Grammar.ofDepth defaultSigil bound depth).condition.Takes c more (·.same t = true) := by
  have hopen : nextSymbol? c.rest = some ("(", x ++ ')' :: more) := by
    rw [hc]
    rfl
  have hclose : nextSymbol? (')' :: more) = some (")", more) := rfl
  obtain ⟨d, hd, hdrest⟩ := Reader.expectSymbol_ok hopen
  refine .step hd (.bind (h.expression (h.opens.skip hdrest) (.of_closer (by decide) Nat.one_pos)
    hdepth hbound) fun v e he hv => ?_)
  obtain ⟨f, hf, hfrest⟩ := Reader.expectSymbol_ok (he ▸ hclose)
  exact .step hf (.pure hfrest hv)

/-- A statement behind what controls it. -/
theorem Tells.branch (h : Tells x o) (hbegins : Begins x) (hc : c.rest = ' ' :: (x ++ more))
    (hno : o.any Tree.takesElse = true → NoElse more) (hdepth : x.length < depth)
    (hbound : x.length + more.length < bound) :
    (Grammar.ofDepth defaultSigil bound depth).statement.Takes c more
      fun v => Tree.sameSlots [v] [o] = true := by
  obtain ⟨d, cs, hx, hd, -⟩ := hbegins.first
  exact h.statement (skip_of_startsToken ⟨d, cs, hx, hd⟩ (.inr hc)) hno hdepth
    (by rw [List.length_append]; exact hbound)

/-- Everything behind an `if` is read by what belongs to it. -/
theorem anyStatement_of_if (hc : c.skip.rest = "if".toList ++ ' ' :: cs) (hbound : 0 < bound)
    (h : ∀ d line fuel, d.rest = ' ' :: cs →
      ((Grammar.ofDepth defaultSigil bound depth).ifElseWithin (fuel + 1) line).Takes d more
        (·.same t = true)) :
    (Grammar.ofDepth defaultSigil bound depth).anyStatement.Takes c more
      fun v => Tree.sameSlots [v] [some t] = true := by
  let g : TreeGrammar := Grammar.ofDepth defaultSigil bound depth
  refine anyStatement_of_keyword (g.ifElseWithin g.bound) (fun c d line hw _ => ?_) rfl hc
    (.of_head (by decide)) fun d line hd => ?_
  · rw [Grammar.plainStatement, Reader.get_bind_apply, hw]
    rfl
  · obtain ⟨fuel, rfl⟩ := Nat.exists_eq_succ_of_ne_zero (Nat.ne_zero_of_lt hbound)
    rw [Grammar.bound_ofDepth]
    exact h d line fuel hd

theorem Tells.ifThen (hx : Legible Strength.assignment x condition) (hbegins : Begins y)
    (hy : Tells y yes) : Tells ("if (".toList ++ x ++ ") ".toList ++ y)
      (some (.fixed .ifElse [some condition, yes, none] line)) := by
  intro bound depth c more hc hno hdepth hbound
  have hrest : c.skip.rest = "if".toList ++ ' ' :: '(' :: (x ++ ')' :: ' ' :: (y ++ more)) := by
    simpa using hc
  have helse : NoElse more := hno rfl
  simp only [List.length_append] at hdepth hbound
  change 4 + x.length + 2 + y.length ≤ depth at hdepth
  change 4 + x.length + 2 + y.length + more.length < bound at hbound
  refine anyStatement_of_if hrest (by omega) fun d line fuel hd => ?_
  refine .bind (condition_takes hx hd (by omega)
    (by simp only [List.length_append, List.length_cons]; omega)) fun v e he hv => ?_
  refine .bind (hy.branch hbegins he (fun _ => helse) (by omega) (by omega)) fun w f hf hw => ?_
  refine .step (Reader.acceptWord_not (hf ▸ fun rest => (helse rest).2)) ?_
  rw [if_neg Bool.false_ne_true]
  refine .step (Reader.acceptWord_not (hf ▸ fun rest => (helse rest).1)) ?_
  rw [if_neg Bool.false_ne_true]
  refine .pure hf (Tree.same_fixed.trans ?_)
  cases w <;> cases yes <;> simp_all [Tree.sameSlots]

theorem Tells.ifElse (hx : Legible Strength.assignment x condition) (hybegins : Begins y)
    (hy : Tells y yes) (hclosed : yes.any Tree.takesElse = false) (hzbegins : Begins z)
    (hz : Tells z (some t)) :
    Tells ("if (".toList ++ x ++ ") ".toList ++ y ++ " else ".toList ++ z)
      (some (.fixed .ifElse [some condition, yes, some t] line)) := by
  intro bound depth c more hc hno hdepth hbound
  have hrest : c.skip.rest = "if".toList ++ ' ' :: '(' :: (x ++ ')' :: ' ' :: (y ++
      (" else ".toList ++ (z ++ more)))) := by
    simpa using hc
  have hlen : " else ".toList.length = 6 := rfl
  simp only [List.length_append] at hdepth hbound
  change 4 + x.length + 2 + y.length + 6 + z.length ≤ depth at hdepth
  change 4 + x.length + 2 + y.length + 6 + z.length + more.length < bound at hbound
  have hword : nextWord? (" else ".toList ++ (z ++ more)) = some ("else", ' ' :: (z ++ more)) := by
    show nextWord? (' ' :: ("else".toList ++ ' ' :: (z ++ more))) = _
    rw [nextWord?_blank, nextWord?_append rfl (.of_head (by decide))]
  refine anyStatement_of_if hrest (by omega) fun d line fuel hd => ?_
  refine .bind (condition_takes hx hd (by omega)
    (by simp only [List.length_append, List.length_cons, hlen]; omega)) fun v e he hv => ?_
  refine .bind (hy.branch hybegins he (fun htakes => by simp [hclosed] at htakes) (by omega)
    (by simp only [List.length_append, hlen]; omega)) fun w f hf hw => ?_
  have helse : nextWord? f.rest = some ("else", ' ' :: (z ++ more)) := hf ▸ hword
  refine .step (Reader.acceptWord_not (nextWord?_ne helse (by decide))) ?_
  rw [if_neg Bool.false_ne_true]
  obtain ⟨k, hk, hkrest⟩ := Reader.acceptWord_ok helse
  refine .step hk ?_
  rw [if_pos rfl]
  refine .bind (hz.branch hzbegins hkrest (fun htakes => hno htakes) (by omega) (by omega))
    fun u m hm hu => .pure hm (Tree.same_fixed.trans ?_)
  cases w <;> cases yes <;> simp_all [Tree.sameSlots]

/-- What takes an `else` of a loop is its body. -/
theorem noElse_of_body (hno : (some t).any Tree.takesElse = true → NoElse more)
    (ht : ∀ b, body = some b → t.takesElse = b.takesElse) (htakes : body.any Tree.takesElse = true) :
    NoElse more := by
  cases body with
  | none => cases htakes
  | some b => exact hno ((ht b rfl).trans htakes)

theorem Tells.whileLoop (hx : Legible Strength.assignment x condition) (hbegins : Begins y)
    (hy : Tells y body) : Tells ("while (".toList ++ x ++ ") ".toList ++ y)
      (some (.fixed .whileLoop [some condition, body] line)) := by
  intro bound depth c more hc hno hdepth hbound
  have hrest : c.skip.rest = "while".toList ++ ' ' :: '(' :: (x ++ ')' :: ' ' :: (y ++ more)) := by
    simpa using hc
  simp only [List.length_append] at hdepth hbound
  change 7 + x.length + 2 + y.length ≤ depth at hdepth
  change 7 + x.length + 2 + y.length + more.length < bound at hbound
  refine anyStatement_of_keyword (Grammar.ofDepth defaultSigil bound depth).whileLoop
    (fun c d line hw _ => ?_) rfl hrest (.of_head (by decide)) fun d line hd => ?_
  · rw [Grammar.plainStatement, Reader.get_bind_apply, hw]
    rfl
  have helse : body.any Tree.takesElse = true → NoElse more :=
    noElse_of_body hno fun b hb => by rw [hb, Tree.fixed, Tree.takesElse]
  refine .bind (condition_takes hx hd (by omega)
    (by simp only [List.length_append, List.length_cons]; omega)) fun v e he hv => ?_
  refine .bind (hy.branch hbegins he helse (by omega) (by omega)) fun w f hf hw =>
    .pure hf (Tree.same_fixed.trans ?_)
  simpa [Tree.sameSlots, hv] using hw

theorem Tells.forLoop {start test step : Option Tree} {w : List Char} (hx : OptionalText x start)
    (hy : OptionalText y test) (hz : OptionalText z step) (hbegins : Begins w) (hw : Tells w body) :
    Tells ("for (".toList ++ forHeader x y z step ++ ") ".toList ++ w)
      (some (.fixed .forLoop [start, test, step, body] line)) := by
  intro bound depth c more hc hno hdepth hbound
  have hrest : c.skip.rest = "for".toList ++ ' ' :: '(' :: (x ++ ';' :: ' ' :: (y ++ ';' ::
      ((step.elim [] fun _ => [' ']) ++ (z ++ ')' :: ' ' :: (w ++ more))))) := by
    simpa [forHeader] using hc
  have hfor : "for (".toList.length = 5 ∧ ") ".toList.length = 2 := ⟨rfl, rfl⟩
  simp only [forHeader, List.length_append, List.length_cons, hfor.1, hfor.2] at hdepth hbound
  refine anyStatement_of_keyword (Grammar.ofDepth defaultSigil bound depth).forLoop
    (fun c d line hword _ => ?_) rfl hrest (.of_head (by decide)) fun d line hd => ?_
  · rw [Grammar.plainStatement, Reader.get_bind_apply, hword]
    rfl
  have helse : body.any Tree.takesElse = true → NoElse more :=
    noElse_of_body hno fun b hb => by rw [hb, Tree.fixed, Tree.takesElse]
  have hopen : nextSymbol? d.rest = some ("(", x ++ ';' :: ' ' :: (y ++ ';' ::
      ((step.elim [] fun _ => [' ']) ++ (z ++ ')' :: ' ' :: (w ++ more))))) := by
    rw [hd]
    rfl
  obtain ⟨e, he, herest⟩ := Reader.expectSymbol_ok hopen
  refine .step he ?_
  have hstops : ';' ∈ [')', ']', ';'] ∧ ')' ∈ [')', ']', ';'] := by decide
  refine hx.clause hstops.1 rfl (.inl herest) (by omega)
    (by simp only [List.length_append, List.length_cons]; omega) fun a f hf ha => ?_
  refine hy.clause hstops.1 rfl (.inr hf) (by omega)
    (by simp only [List.length_append, List.length_cons]; omega) fun b g hg hb => ?_
  have hgap : g.rest = z ++ ')' :: ' ' :: (w ++ more) ∨
      g.rest = ' ' :: (z ++ ')' :: ' ' :: (w ++ more)) := by
    rw [hg]
    cases step with
    | none => exact .inl rfl
    | some step => exact .inr rfl
  refine hz.clause hstops.2 rfl hgap (by omega)
    (by simp only [List.length_append, List.length_cons]; omega) fun p k hk hp => ?_
  refine (hw.branch hbegins hk helse (by omega) (by omega)).bind fun v m hm hv =>
    .pure hm (Tree.same_fixed.trans ?_)
  exact Tree.sameSlots_cons_iff.mpr ⟨ha, Tree.sameSlots_cons_iff.mpr ⟨hb,
    Tree.sameSlots_cons_iff.mpr ⟨hp, hv⟩⟩⟩

/-! ### An `else` behind a statement -/

/-- Texts of statements by the branches that end them. -/
inductive Written : List Char → Option Tree → Prop
  | closed {x : List Char} {o : Option Tree} (hbegins : Begins x) (h : Tells x o)
    (hclosed : o.any Tree.takesElse = false) : Written x o
  | ifThen {x y : List Char} {condition : Tree} {yes : Option Tree} {line : Nat}
    (hx : Legible Strength.assignment x condition) (hy : Written y yes) :
    Written ("if (".toList ++ x ++ ") ".toList ++ y)
      (some (.fixed .ifElse [some condition, yes, none] line))
  | ifElse {x y z : List Char} {condition no : Tree} {yes : Option Tree} {line : Nat}
    (hx : Legible Strength.assignment x condition) (hy : Written y yes)
    (hclosed : yes.any Tree.takesElse = false) (hz : Written z (some no)) :
    Written ("if (".toList ++ x ++ ") ".toList ++ y ++ " else ".toList ++ z)
      (some (.fixed .ifElse [some condition, yes, some no] line))
  | whileLoop {x y : List Char} {condition : Tree} {body : Option Tree} {line : Nat}
    (hx : Legible Strength.assignment x condition) (hy : Written y body) :
    Written ("while (".toList ++ x ++ ") ".toList ++ y)
      (some (.fixed .whileLoop [some condition, body] line))
  | forLoop {x y z w : List Char} {start test step body : Option Tree} {line : Nat}
    (hx : OptionalText x start) (hy : OptionalText y test) (hz : OptionalText z step)
    (hw : Written w body) :
    Written ("for (".toList ++ forHeader x y z step ++ ") ".toList ++ w)
      (some (.fixed .forLoop [start, test, step, body] line))

theorem begins_keyword {word : String} {text : List Char} (hword : isWord word = true)
    (hne : word ≠ "else" ∧ word ≠ "elseif") (htext : text = word.toList ++ ' ' :: cs) :
    Begins text := by
  rw [htext]
  exact .of_word hword (.of_head (by decide)) hne (List.cons_ne_nil _ _)

theorem Written.begins (h : Written x o) : Begins x := by
  cases h with
  | closed hbegins => exact hbegins
  | ifThen | ifElse =>
      have hword : isWord "if" = true := by decide
      exact begins_keyword hword (by decide) (by simp only [List.append_assoc]; rfl)
  | whileLoop =>
      have hword : isWord "while" = true := by decide
      exact begins_keyword hword (by decide) (by simp only [List.append_assoc]; rfl)
  | forLoop =>
      have hword : isWord "for" = true := by decide
      exact begins_keyword hword (by decide) (by simp only [List.append_assoc]; rfl)

theorem Written.tells (h : Written x o) : Tells x o := by
  induction h with
  | closed _ h => exact h
  | ifThen hx hy ih => exact .ifThen hx hy.begins ih
  | ifElse hx hy hclosed hz ihy ihz => exact .ifElse hx hy.begins ihy hclosed hz.begins ihz
  | whileLoop hx hy ih => exact .whileLoop hx hy.begins ih
  | forLoop hx hy hz hw ih => exact .forLoop hx hy hz hw.begins ih

/-- An `else` behind a statement that takes it is given to that. -/
theorem Written.giveElse (h : Written x o) (ho : o = some t) (htakes : t.takesElse = true)
    (hlast : Written y (some last)) :
    Written (x ++ " else ".toList ++ y) (some (Tree.giveElse last t)) := by
  induction h generalizing t with
  | closed _ _ hclosed =>
      rw [ho, Option.any_some, htakes] at hclosed
      cases hclosed
  | @ifThen x z condition yes line hx hz ih =>
      cases ho
      cases yes with
      | none => exact .ifElse hx hz rfl hlast
      | some yes =>
          rw [Tree.fixed, Tree.giveElse]
          split
          · rename_i hyes
            have hgiven := ih rfl hyes
            simp only [List.append_assoc] at hgiven ⊢
            have hthen : Written _ (some (.fixed .ifElse [some condition,
                some (Tree.giveElse last yes), none] line)) := .ifThen hx hgiven
            simpa only [List.append_assoc] using hthen
          · rename_i hyes
            exact .ifElse hx hz (by simpa using hyes) hlast
  | @ifElse x z w condition no yes line hx hz hclosed hw _ ih =>
      cases ho
      have hgiven : Written _ (some (.fixed .ifElse [some condition, yes,
          some (Tree.giveElse last no)] line)) := .ifElse hx hz hclosed (ih rfl htakes)
      simp only [List.append_assoc] at hgiven ⊢
      cases yes <;> exact hgiven
  | @whileLoop x z condition body line hx hz ih =>
      cases ho
      cases body with
      | none => cases htakes
      | some body =>
          have hgiven : Written _ (some (.fixed .whileLoop [some condition,
              some (Tree.giveElse last body)] line)) := .whileLoop hx (ih rfl htakes)
          simp only [List.append_assoc] at hgiven ⊢
          exact hgiven
  | @forLoop x z w v start test step body line hx hz hw hv ih =>
      cases ho
      cases body with
      | none => cases htakes
      | some body =>
          have hgiven : Written _ (some (.fixed .forLoop [start, test, step,
              some (Tree.giveElse last body)] line)) := .forLoop hx hz hw (ih rfl htakes)
          simp only [List.append_assoc] at hgiven ⊢
          exact hgiven

end SnippetRewrite
