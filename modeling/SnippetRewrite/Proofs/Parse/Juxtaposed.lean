import SnippetRewrite.Proofs.Parse.Lookahead
import SnippetRewrite.Proofs.Parse.RoundTrip

/-!
Programs one behind the other. Two texts that are accepted are accepted as one text, the second on
the lines behind the first: the statements are those of the first and then those of the second, and
these are as many lines further down as the first has. The tags around programs stay out of this. So
do two sigils that begin a comment or go on with one: with them an expression may be read at a
comment that is not closed, and the second text may close it.
-/

namespace SnippetRewrite

/-! ### The end of the statements -/

/-- Nothing follows the statements of a program but a closing tag. -/
def AtStop (cs : List Char) : Prop :=
  cs = [] ∨ ∃ rest, cs = '?' :: '>' :: rest

theorem atStop_tail {e : Excerpt} {cs : List Char} (hcs : cs ≠ []) (h : AtStop (cs ++ e.tail)) :
    AtStop cs := by
  obtain ⟨ch, cs, rfl⟩ := List.exists_cons_of_ne_nil hcs
  obtain hnil | ⟨rest, hstop⟩ := h
  · cases hnil
  obtain ⟨rfl, hrest⟩ := List.cons.inj hstop
  cases cs with
  | nil =>
      -- what follows the text begins on a line of its own
      obtain htail | ⟨rest', htail⟩ := e.tail_eq
      · rw [htail] at hrest
        cases hrest
      · rw [htail] at hrest
        cases hrest
  | cons d cs =>
      obtain ⟨rfl, -⟩ := List.cons.inj hrest
      exact .inr ⟨cs, rfl⟩

namespace Cursor

theorem isSome_past? (text : List Char) (c : Cursor) :
    (c.past? text).isSome = (afterStart text c.rest).isSome := by
  rw [← past?_eq, Option.isSome_map]

theorem pastTag_of_none {tag : String} {c : Cursor}
    (h : (afterStart tag.toList c.skip.rest).isSome = false) : c.pastTag tag = c.skip := by
  rw [← isSome_past?, Option.isSome_eq_false_iff, Option.isNone_iff_eq_none] at h
  rw [pastTag, h]
  rfl

end Cursor

namespace Excerpt

variable {e : Excerpt} {c d : Cursor}

theorem Links.pastTag (h : e.Links c d) (hended : ¬e.Ended c) (hstuck : ¬e.Stuck c) {tag : String}
    (htag : '\n' ∉ tag.toList) : e.Links (c.pastTag tag) (d.pastTag tag) := by
  have hskip := h.skip hended hstuck
  have hpast := hskip.past? htag
  rw [Cursor.pastTag, Cursor.pastTag]
  generalize c.skip.past? tag.toList = o, d.skip.past? tag.toList = o' at hpast ⊢
  cases hpast with
  | none => exact hskip
  | some hnext => exact hnext

theorem links_start (e : Excerpt) {text : List Char} (h : 1 + text.count '\n' = e.last) :
    e.Links (Cursor.start text) ⟨text ++ e.tail, Position.start.moved e.lines⟩ :=
  ⟨rfl, rfl, h⟩

end Excerpt

namespace Grammar

open Reader

variable {e : Excerpt} {g g' : TreeGrammar} {c d stop : Cursor} {n : Nat} {ts : List Tree}

/-! ### The statements of a program -/

theorem programStatementsWithin_stop (n : Nat) (h : AtStop c.skip.rest) :
    g.programStatementsWithin (n + 1) c = .ok ([], c.skip) := by
  rw [programStatementsWithin, modify_bind_apply, get_bind_apply]
  obtain hrest | ⟨rest, hrest⟩ := h
  · rw [hrest]
    rfl
  · rw [hrest]
    rfl

theorem programStatementsWithin_step (n : Nat) (h : ¬AtStop c.skip.rest) :
    g.programStatementsWithin (n + 1) c = (g.statement >>= fun first =>
      g.programStatementsWithin n >>= fun rest => pure (first.toList ++ rest)) c.skip := by
  rw [programStatementsWithin, modify_bind_apply, get_bind_apply]
  refine congrFun ?_ c.skip
  split
  · exact absurd (.inl ‹_›) h
  · exact absurd (.inr ⟨_, ‹_›⟩) h
  · rfl

theorem programStatementsWithin_skip (n : Nat) (h : c.skip = d.skip) {r : List Tree × Cursor}
    (hr : g.programStatementsWithin n c = .ok r) : g.programStatementsWithin n d = .ok r := by
  cases n with
  | zero => cases hr
  | succ n =>
      rw [programStatementsWithin, modify_bind_apply] at hr ⊢
      rwa [← h]

/-- Behind a comment that is not closed no end is reached. -/
theorem programStatementsWithin_stuck (hg : g.Carries e g') (n : Nat) (h : e.Stuck c) :
    YieldsFrom c (g.programStatementsWithin n) fun _ stop => e.Stuck stop := by
  induction n generalizing c with
  | zero => exact fun _ _ hv => nomatch hv
  | succ n ih =>
      have hnot : ¬AtStop c.skip.rest := by
        obtain ⟨-, inner, hrest⟩ := h
        rw [hrest]
        rintro (hnil | ⟨rest, hstop⟩)
        · cases hnil
        · simp at hstop
      rw [YieldsFrom, programStatementsWithin_step n hnot]
      refine YieldsFrom.bind (hg.statement.stuck _ (Excerpt.stuck_skip.mpr h)) fun first c₁ hc₁ => ?_
      refine YieldsFrom.bind (ih hc₁) fun rest stop hstop => ?_
      rintro _ _ ⟨⟩
      exact hstop

/-- In the longer text the statements of a text are read at its beginning, and what is read after
them is what is read at its end. -/
theorem programStatementsWithin_onward (hg : g.Carries e g') (hlinks : e.Links c d)
    (h : g.programStatementsWithin n c = .ok (ts, stop)) :
    e.Stuck stop ∨ ∃ c' d' k, k < n ∧ e.Links c' d' ∧ stop = c'.skip ∧ AtStop c'.skip.rest ∧
      ∀ m us behind, g'.programStatementsWithin m d' = .ok (us, behind) →
        g'.programStatementsWithin (k + m) d = .ok (ts.map (Tree.moved e.lines) ++ us, behind) := by
  induction n generalizing c d ts with
  | zero => cases h
  | succ n ih =>
      by_cases hat : AtStop c.skip.rest
      · rw [programStatementsWithin_stop n hat] at h
        cases h
        exact .inr ⟨c, d, 0, n.succ_pos, hlinks, rfl, hat, fun m us behind hm => by simpa using hm⟩
      rw [programStatementsWithin_step n hat] at h
      obtain ⟨first, c₁, hfirst, h⟩ := of_bind_ok h
      obtain ⟨rest, c₂, hrest, h⟩ := of_bind_ok h
      cases h
      by_cases hstuck : e.Stuck c
      · have hc₁ := hg.statement.stuck _ (Excerpt.stuck_skip.mpr hstuck) first c₁ hfirst
        exact .inl (programStatementsWithin_stuck hg n hc₁ rest _ hrest)
      have hended : ¬e.Ended c := fun hended => hat (.inl hended.2)
      have hskip := hlinks.skip hended hstuck
      rcases hg.statement.linked _ _ hskip first c₁ hfirst with
        hc₁ | ⟨hfalse, -⟩ | ⟨d₁, hfirst', hlinks₁⟩
      · exact .inl (programStatementsWithin_stuck hg n hc₁ rest _ hrest)
      · cases hfalse
      · rcases ih hlinks₁ hrest with hstop | ⟨c', d', k, hk, hlinks', hstop, hat', hrun⟩
        · exact .inl hstop
        refine .inr ⟨c', d', k + 1, Nat.succ_lt_succ hk, hlinks', hstop, hat', ?_⟩
        intro m us behind hm
        have hnot : ¬AtStop d.skip.rest := by
          rw [hskip.rest_eq]
          exact fun htail => hat (atStop_tail (fun hnil => hat (.inl hnil)) htail)
        rw [Nat.add_right_comm, programStatementsWithin_step _ hnot, bind_ok hfirst',
          bind_ok (hrun m us behind hm)]
        cases first <;> simp

/-! ### Programs and their tags -/

theorem program_of_statements {statements : List Tree} {stop : Cursor}
    (h : g.programStatementsWithin g.bound (c.pastTag "<?php") = .ok (statements, stop))
    (hrest : (stop.pastTag "?>").skip.rest = []) :
    ∃ d, g.program c = .ok (.list .stmtList statements 1, d) := by
  refine ⟨(stop.pastTag "?>").skip, ?_⟩
  rw [program, bind_ok (optionalTag_apply _ _), bind_ok h, bind_ok (optionalTag_apply _ _),
    modify_bind_apply, get_bind_apply, hrest]
  rfl

/-- No program begins with the alternative of an `if`. -/
theorem programStatementsWithin_notAtElse (hneeds : g.statement.Needs NotAtElse) (n : Nat) :
    (g.programStatementsWithin n).Needs NotAtElse := by
  rintro c ⟨ts, stop⟩ h word hmem next hword
  cases n with
  | zero => cases h
  | succ n =>
      obtain ⟨first, rest, hrest, hfirst⟩ := rest_of_word? hword
      have hnot : ¬AtStop c.skip.rest := by
        have hmark : ∀ word ∈ ["else", "elseif"], word.toList.head? ≠ some '?' := by decide
        rw [hrest]
        rintro (hnil | ⟨cs, hstop⟩)
        · cases hnil
        · obtain ⟨rfl, -⟩ := List.cons.inj hstop
          exact hmark word hmem hfirst
      rw [programStatementsWithin_step n hnot] at h
      obtain ⟨o, d, hstatement, -⟩ := of_bind_ok h
      exact notAtElse_skip c (hneeds c.skip (o, d) hstatement) word hmem next hword

end Grammar

/-! ### Two texts -/

def takesOpeningTag (source : List Char) : Bool :=
  ((Cursor.start source).skip.past? "<?php".toList).isSome

def takesClosingTag (sigil : Char) (source : List Char) : Bool :=
  let g : TreeGrammar := Grammar.ofLength sigil source.length
  match g.programStatementsWithin g.bound ((Cursor.start source).pastTag "<?php") with
  | .ok (_, stop) => (stop.skip.past? "?>".toList).isSome
  | .error _ => false

section

variable {sigil : Char} {source front back : List Char} {g g' : TreeGrammar} {stop : Cursor} {n : Nat}
  {ts : List Tree}

/-- The first of two texts in both. -/
def Excerpt.ofFront (front back : List Char) (h : Grammar.NotAtElse (Cursor.start back)) : Excerpt where
  tail := '\n' :: back
  lines := 0
  last := 1 + front.count '\n'
  tail_eq := .inr ⟨back, rfl⟩
  no_else word hword cs hcs := by
    rw [nextWord?, skipped_separator rfl, ← nextWord?] at hcs
    obtain ⟨next, hnext, -⟩ := word?_of_some (c := Cursor.start back) hcs
    exact h word hword next hnext

/-- The second of two texts in both. -/
def Excerpt.ofBack (front back : List Char) : Excerpt where
  tail := []
  lines := front.count '\n' + 1
  last := 1 + back.count '\n'
  tail_eq := .inl rfl
  no_else := by rintro _ _ _ ⟨⟩

/-- The place in two texts where the second begins. -/
def seam (front back : List Char) : Cursor :=
  ⟨back, Position.start.moved (front.count '\n' + 1)⟩

theorem pastTag_seam (h : takesOpeningTag back = false) {c : Cursor}
    (hc : c.skip = (seam front back).skip) : c.pastTag "<?php" = (seam front back).skip := by
  rw [takesOpeningTag, Cursor.isSome_past?, rest_skip] at h
  rw [Cursor.pastTag_of_none, hc]
  rwa [hc, rest_skip]

theorem Grammar.programStatementsWithin_front (hback : NotAtElse (Cursor.start back))
    (hg : g.Carries (.ofFront front back hback) g') (hopen : takesOpeningTag back = false)
    (h : g.programStatementsWithin n ((Cursor.start front).pastTag "<?php") = .ok (ts, stop))
    (hstop : stop.skip.rest = []) :
    ∃ k < n, ∀ m us behind, g'.programStatementsWithin m (seam front back) = .ok (us, behind) →
      g'.programStatementsWithin (k + m) ((Cursor.start (front ++ '\n' :: back)).pastTag "<?php") =
        .ok (ts ++ us, behind) := by
  have hlinks : (Excerpt.ofFront front back hback).Links (Cursor.start front)
      (Cursor.start (front ++ '\n' :: back)) := Excerpt.links_start _ rfl
  have hnot : ¬(Excerpt.ofFront front back hback).Stuck stop := by
    rintro ⟨-, inner, hrest⟩
    rw [hstop] at hrest
    cases hrest
  have hseam {c d : Cursor} (hlinks : (Excerpt.ofFront front back hback).Links c d)
      (hended : (Excerpt.ofFront front back hback).Ended c) : d.skip = (seam front back).skip :=
    hended.skip_eq hlinks rfl
  by_cases hstuck : (Excerpt.ofFront front back hback).Stuck (Cursor.start front)
  · refine absurd (programStatementsWithin_stuck hg n ?_ ts stop h) hnot
    rw [Cursor.pastTag_of_none]
    · exact Excerpt.stuck_skip.mpr hstuck
    · obtain ⟨-, inner, hrest⟩ := hstuck
      rw [hrest]
      rfl
  by_cases hended : (Excerpt.ofFront front back hback).Ended (Cursor.start front)
  · -- the first text has no statements, and in both the second is read at once
    have hnil : (Cursor.start front).skip.rest = [] := hended.2
    rw [Cursor.pastTag_of_none (by rw [hnil]; rfl)] at h
    cases n with
    | zero => cases h
    | succ n =>
        rw [programStatementsWithin_stop n (by rw [skip_skip]; exact .inl hended.2)] at h
        cases h
        refine ⟨0, n.succ_pos, fun m us behind hm => ?_⟩
        rw [pastTag_seam hopen (hseam hlinks hended), Nat.zero_add]
        exact programStatementsWithin_skip m (skip_skip _).symm hm
  have hpast : (Excerpt.ofFront front back hback).Links ((Cursor.start front).pastTag "<?php")
      ((Cursor.start (front ++ '\n' :: back)).pastTag "<?php") :=
    hlinks.pastTag hended hstuck (by decide)
  rcases programStatementsWithin_onward hg hpast h with
    hstuck | ⟨c', d', k, hk, hlinks', rfl, hat, hrun⟩
  · exact absurd hstuck hnot
  rw [skip_skip] at hstop
  have hended' : (Excerpt.ofFront front back hback).Ended c' := ⟨List.cons_ne_nil _ _, hstop⟩
  refine ⟨k, hk, fun m us behind hm => ?_⟩
  have hlast := hrun m us behind (programStatementsWithin_skip m (hseam hlinks' hended').symm hm)
  have hmoved : ts.map (Tree.moved 0) = ts :=
    (List.map_congr_left fun t _ => t.moved_zero).trans (List.map_id ts)
  rwa [show (Excerpt.ofFront front back hback).lines = 0 from rfl, hmoved] at hlast

theorem Grammar.programStatementsWithin_back (hg : g.Carries (.ofBack front back) g')
    (hopen : takesOpeningTag back = false)
    (h : g.programStatementsWithin n ((Cursor.start back).pastTag "<?php") = .ok (ts, stop))
    (hstop : (stop.pastTag "?>").skip.rest = []) :
    ∃ k < n, ∀ m, ∃ behind, g'.programStatementsWithin (k + (m + 1)) (seam front back) =
      .ok (ts.map (Tree.moved (front.count '\n' + 1)), behind) ∧
        (behind.pastTag "?>").skip.rest = [] := by
  have hended (c : Cursor) : ¬(Excerpt.ofBack front back).Ended c := fun hended => hended.1 rfl
  have hstuck (c : Cursor) : ¬(Excerpt.ofBack front back).Stuck c := fun hstuck => hstuck.1 rfl
  have hlinks : (Excerpt.ofBack front back).Links (Cursor.start back) (seam front back) :=
    ⟨(List.append_nil back).symm, rfl, rfl⟩
  have hskip : (Cursor.start back).pastTag "<?php" = (Cursor.start back).skip :=
    Cursor.pastTag_of_none (by rwa [takesOpeningTag, Cursor.isSome_past?] at hopen)
  rw [hskip] at h
  replace h := programStatementsWithin_skip n (skip_skip _) h
  rcases programStatementsWithin_onward hg hlinks h with
    hs | ⟨c', d', k, hk, hlinks', rfl, hat, hrun⟩
  · exact absurd hs (hstuck stop)
  have hskip' := hlinks'.skip (hended c') (hstuck c')
  have hrest {c d : Cursor} (h : (Excerpt.ofBack front back).Links c d) : d.rest = c.rest :=
    h.rest_eq.trans (List.append_nil _)
  refine ⟨k, hk, fun m => ⟨d'.skip, ?_, ?_⟩⟩
  · have hlast := programStatementsWithin_stop (g := g') m (hrest hskip' ▸ hat)
    rw [hrun (m + 1) [] d'.skip hlast, List.append_nil]
    rfl
  · have htag : (Excerpt.ofBack front back).Links (c'.skip.pastTag "?>") (d'.skip.pastTag "?>") :=
      hskip'.pastTag (hended _) (hstuck _) (by decide)
    rw [hrest (htag.skip (hended _) (hstuck _)), hstop]

theorem readProgram_append (hstar : sigil ≠ '*') (hslash : sigil ≠ '/') {t u : Tree}
    (ht : readProgram sigil front = .ok t) (hu : readProgram sigil back = .ok u)
    (hclosing : takesClosingTag sigil front = false) (hopening : takesOpeningTag back = false) :
    ∃ first second, t = .list .stmtList first 1 ∧ u = .list .stmtList second 1 ∧
      readProgram sigil (front ++ '\n' :: back) = .ok (.list .stmtList
        (first ++ second.map (Tree.moved (front.count '\n' + 1))) 1) := by
  obtain ⟨_, ht⟩ := program_of_readProgram ht
  obtain ⟨_, hu⟩ := program_of_readProgram hu
  obtain ⟨first, stop, rfl, hfirst, rfl, hend⟩ := Grammar.program_ok ht
  obtain ⟨second, stop', rfl, hsecond, rfl, hend'⟩ := Grammar.program_ok hu
  refine ⟨first, second, rfl, rfl, ?_⟩
  have hstop : stop.skip.rest = [] := by
    rw [takesClosingTag] at hclosing
    simp only [hfirst] at hclosing
    rwa [Cursor.pastTag_of_none (by rwa [← Cursor.isSome_past?]), skip_skip] at hend
  have hlength : (front ++ '\n' :: back).length = front.length + back.length + 1 := by
    rw [List.length_append, List.length_cons, Nat.add_assoc]
  have hnotElse : Grammar.NotAtElse (Cursor.start back) := by
    rw [Cursor.pastTag_of_none (by rwa [takesOpeningTag, Cursor.isSome_past?] at hopening)] at hsecond
    exact Grammar.notAtElse_skip _ (Grammar.programStatementsWithin_notAtElse
      (Grammar.anyStatement_notAtElse (Grammar.expression_notAtElse _ _ _)) _ _ _ hsecond)
  have hcarries (e : Excerpt) {source : List Char}
      (h : source.length ≤ (front ++ '\n' :: back).length) :
      (Grammar.ofLength sigil source.length).Carries e
        (Grammar.ofLength sigil (front ++ '\n' :: back).length) :=
    Grammar.ofDepth_carries e hstar hslash (by omega) (by omega)
  obtain ⟨k, hk, hfront⟩ := Grammar.programStatementsWithin_front hnotElse (hcarries _ (by omega))
    hopening hfirst hstop
  obtain ⟨k', hk', hback⟩ := Grammar.programStatementsWithin_back (hcarries _ (by omega))
    hopening hsecond hend'
  rw [Grammar.ofLength, Grammar.bound_ofDepth] at hk hk'
  obtain ⟨m, hm⟩ : ∃ m, (front ++ '\n' :: back).length + 1 = k + (k' + (m + 1)) :=
    ⟨front.length + back.length + 1 - k - k', by omega⟩
  obtain ⟨behind, hrun, hbehind⟩ := hback m
  have hall := hfront (k' + (m + 1)) _ behind hrun
  rw [← hm] at hall
  obtain ⟨d, hd⟩ := Grammar.program_of_statements
    (g := Grammar.ofLength sigil (front ++ '\n' :: back).length)
    (by rwa [Grammar.ofLength, Grammar.bound_ofDepth]) hbehind
  rw [readProgram, hd]
  rfl

end

/-! ### Units -/

/-- A unit that holds a program with these statements. -/
def Arena.HoldsProgram (a : Arena) (statements : List Tree) : Prop :=
  ∃ root, a.root = some root ∧ a.tree root = .ok (.list .stmtList statements 1)

theorem Arena.HoldsProgram.unique {a : Arena} {statements statements' : List Tree}
    (h : a.HoldsProgram statements) (h' : a.HoldsProgram statements') :
    statements = statements' := by
  obtain ⟨root, hroot, ht⟩ := h
  obtain ⟨root', hroot', ht'⟩ := h'
  cases hroot.symm.trans hroot'
  have hlist := Except.ok.inj (ht.symm.trans ht')
  simp only [Tree.list, Tree.node.injEq, true_and] at hlist
  exact List.map_injective_iff.mpr (Option.some_injective _) hlist

theorem Arena.exists_holdsProgram {sigil : Char} {source : String} {statements : List Tree}
    (h : readProgram sigil source.toList = .ok (.list .stmtList statements 1)) (origin : String) :
    ∃ a, parseUnit sigil source origin = .ok a ∧ a.HoldsProgram statements := by
  obtain ⟨a, root, hparse, hshape, htree⟩ := Arena.exists_parseUnit h origin
  exact ⟨a, hparse, root, hshape.root_eq, htree⟩

/-- Two texts that are accepted, of which the first ends at no closing tag and the second begins
with no opening tag, are accepted one behind the other. The statements are those of the first, on
their lines, and then those of the second, as many lines further down as the first text has. -/
theorem parseUnit_append {sigil : Char} (hstar : sigil ≠ '*') (hslash : sigil ≠ '/')
    {front back origin origin' : String} {a b : Arena} (ha : parseUnit sigil front origin = .ok a)
    (hb : parseUnit sigil back origin' = .ok b)
    (hclosing : takesClosingTag sigil front.toList = false)
    (hopening : takesOpeningTag back.toList = false) (label : String) :
    ∃ first second c, a.HoldsProgram first ∧ b.HoldsProgram second ∧
      parseUnit sigil (front ++ "\n" ++ back) label = .ok c ∧
      c.HoldsProgram (first ++ second.map (Tree.moved (front.toList.count '\n' + 1))) := by
  obtain ⟨root, t, hfront, hshape, ht⟩ := Arena.exists_readProgram ha
  obtain ⟨root', u, hback, hshape', hu⟩ := Arena.exists_readProgram hb
  obtain ⟨first, second, rfl, rfl, hread⟩ :=
    readProgram_append hstar hslash hfront hback hclosing hopening
  have htext : (front ++ "\n" ++ back).toList = front.toList ++ '\n' :: back.toList := by
    simp
  obtain ⟨c, hc, hstatements⟩ := Arena.exists_holdsProgram (htext ▸ hread) label
  exact ⟨first, second, c, ⟨root, hshape.root_eq, ht⟩, ⟨root', hshape'.root_eq, hu⟩, hc, hstatements⟩

/-- A comment lasts up to the seam, and no `else` comes behind it. -/
theorem parseUnit_branchThenStep : ∃ a b c,
    parseUnit defaultSigil "if ($a) f(); // else" "front" = .ok a ∧
    parseUnit defaultSigil "$b++;" "back" = .ok b ∧
    takesClosingTag defaultSigil "if ($a) f(); // else".toList = false ∧
    takesOpeningTag "$b++;".toList = false ∧
    parseUnit defaultSigil ("if ($a) f(); // else" ++ "\n" ++ "$b++;") "both" = .ok c ∧
    c.HoldsProgram
      [.fixed .ifElse [some (.var "$a" 1),
          some (.fixed .call [some (.name "f" 1), some (.list .argList [] 1)] 1), none] 1,
        .fixed .postInc [some (.var "$b" 2)] 2] := by
  have hfront : readProgram defaultSigil "if ($a) f(); // else".toList = .ok (.list .stmtList
      [.fixed .ifElse [some (.var "$a" 1),
        some (.fixed .call [some (.name "f" 1), some (.list .argList [] 1)] 1), none] 1] 1) :=
    readProgram_of_toOption (by decide +kernel)
  have hback : readProgram defaultSigil "$b++;".toList = .ok (.list .stmtList
      [.fixed .postInc [some (.var "$b" 1)] 1] 1) := readProgram_of_toOption (by decide +kernel)
  have hclosing : takesClosingTag defaultSigil "if ($a) f(); // else".toList = false := by
    decide +kernel
  have hopening : takesOpeningTag "$b++;".toList = false := by decide +kernel
  obtain ⟨a, ha, hfirst⟩ := Arena.exists_holdsProgram hfront "front"
  obtain ⟨b, hb, hsecond⟩ := Arena.exists_holdsProgram hback "back"
  obtain ⟨first, second, c, hfirst', hsecond', hc, hall⟩ :=
    parseUnit_append (by decide) (by decide) ha hb hclosing hopening "both"
  obtain rfl := hfirst.unique hfirst'
  obtain rfl := hsecond.unique hsecond'
  have hlines : "if ($a) f(); // else".toList.count '\n' + 1 = 1 := by decide +kernel
  rw [hlines] at hall
  exact ⟨a, b, c, ha, hb, hclosing, hopening, hc, by simpa using hall⟩

/-- With a star for a sigil a division is read at a comment that is not closed, and the second text
may close it. -/
theorem parseUnit_append_star : ∃ a b, parseUnit '*' "a /*b;" "front" = .ok a ∧
    parseUnit '*' "/**/" "back" = .ok b ∧ takesClosingTag '*' "a /*b;".toList = false ∧
    takesOpeningTag "/**/".toList = false ∧
    ∀ label c, parseUnit '*' ("a /*b;" ++ "\n" ++ "/**/") label ≠ .ok c := by
  have hfront : readProgram '*' "a /*b;".toList = .ok (.list .stmtList
      [.fixed (.binary .div) [some (.var "a" 1), some (.var "*b" 1)] 1] 1) :=
    readProgram_of_toOption (by decide +kernel)
  have hback : readProgram '*' "/**/".toList = .ok (.list .stmtList [] 1) :=
    readProgram_of_toOption (by decide +kernel)
  have hboth : (readProgram '*' ("a /*b;" ++ "\n" ++ "/**/").toList).toOption = none := by
    decide +kernel
  obtain ⟨a, ha, -⟩ := Arena.exists_holdsProgram hfront "front"
  obtain ⟨b, hb, -⟩ := Arena.exists_holdsProgram hback "back"
  refine ⟨a, b, ha, hb, by decide +kernel, by decide +kernel, fun label c hc => ?_⟩
  obtain ⟨-, t, hread, -, -⟩ := Arena.exists_readProgram hc
  rw [hread] at hboth
  cases hboth

end SnippetRewrite
