import SnippetRewrite.Proofs.Parse.RoundTrip
import SnippetRewrite.Proofs.Syntax.Callee

/-!
Chains, printed and read again. Parentheses around what is called are not printed when that is a
variable or a property, so a call of the value of a variable is read back as a call of a function,
and a call of the value of a property as that of a method.
-/

namespace SnippetRewrite

variable {t : Tree}

namespace Tree

theorem forall₂_reread {items : List Tree} (h : ∀ t ∈ items, t.ReadBack t.reread) :
    List.Forall₂ ReadBack items (items.map reread) :=
  List.forall₂_map_right_iff.mpr (List.forall₂_same.mpr h)

theorem Chain.label_ne_name (h : t.Chain) (value : Value) : t.label ≠ .leaf .name value := by
  cases h <;> nofun

/-- The text of a chain is read as a chain in which names in front of arguments are those of functions
and methods. -/
theorem Chain.readBack (h : t.Chain) : t.ReadBack t.reread := by
  induction h with
  | integer h =>
      rw [literal, reread_node, if_neg (by simp)]
      exact .literal h
  | var h =>
      rw [reread_var]
      exact .var h
  | @dim _ index _ _ _ ihobject ihindex =>
      rw [reread_fixed (by decide)]
      refine .dim ihobject ?_
      cases index with
      | none => exact .none
      | some t => exact .some (ihindex t rfl)
  | prop _ hmember ih =>
      rw [reread_prop, reread_name]
      exact .prop ih hmember
  | methodCall _ hmember _ ih ihs =>
      rw [reread_fixed (by decide)]
      simp only [List.map_cons, List.map_nil, Option.map_some, reread_name, reread_list]
      exact .methodCall ih hmember (forall₂_reread ihs)
  | new hname _ ihs =>
      rw [reread_fixed (by decide)]
      simp only [List.map_cons, List.map_nil, Option.map_some, reread_name, reread_list]
      exact .new hname (forall₂_reread ihs)
  | callName hname harray _ ihs =>
      rw [reread_call, reread_name, readCall_of_not_reference rfl, reread_list]
      exact .callName hname harray (forall₂_reread ihs)
  | @callVariable text _ _ _ _ _ hname _ ihs =>
      have hitems := fun level => ReadBack.items (forall₂_reread ihs) level
      rw [reread_call, reread_var, reread_list, readCall_var]
      refine .of_legible Strength.postfixed rfl (by decide) fun level => ?_
      rw [charsAt_callVariable]
      split
      · rename_i harray
        subst harray
        exact .arrayWord (hitems level)
      · rename_i harray
        exact .callName hname harray (hitems level)
  | callProperty _ hmember _ ihobject ihs =>
      rw [reread_call, reread_prop, reread_list, reread_name, readCall_prop]
      refine .of_legible Strength.postfixed rfl (by decide) fun level => ?_
      rw [charsAt_callProperty]
      exact .methodCall (ihobject.within (by decide) le_rfl 0) hmember
        (ReadBack.items (forall₂_reread ihs) level)
  | call hcallee hreference _ ihcallee ihs =>
      have hread := (isReference_reread _).trans hreference
      rw [reread_call, reread_list, readCall_of_not_reference hread]
      exact .call ihcallee hcallee.label_ne_name hread (forall₂_reread ihs)

/-! ### Programs of chains -/

theorem toList_statement (h : t.Chain) : (t.printed.statement 0).toList = t.chars ++ [';'] := by
  cases h <;> exact String.toList_append

theorem toList_programText {items : List Tree} {line : Nat} (h : ∀ t ∈ items, t.Chain) :
    (list .stmtList items line).programText.toList = statementLines (items.map chars) := by
  rw [programText, children_list]
  induction items with
  | nil => rfl
  | cons t items ih =>
      simp only [List.mem_cons, forall_eq_or_imp] at h
      cases items with
      | nil => exact toList_statement h.1
      | cons u items =>
          have hrest := ih h.2
          simp only [List.map_cons] at hrest ⊢
          rw [String.intercalate_cons_cons, String.toList_append, String.toList_append, hrest, toList_statement h.1,
            statementLines]
          simp

end Tree

namespace Arena

variable {a : Arena}

/-- Programs of chains are printed as texts that are read again. What is read differs from what was
printed in nothing but the callees of calls: a variable becomes the name of a function and a property
the name of a method. The two are the same exactly if no variable and no property is called. -/
theorem reparse_chains {source origin : String} {root : NodeId}
    (h : parseUnit defaultSigil source origin = .ok a) (hroot : a.root = some root)
    (ht : a.tree root = .ok t) (hchains : ∀ s ∈ t.children, s.isChain = true) (origin' : String) :
    ∃ text b root' u, a.source = .ok text ∧ parseUnit defaultSigil text origin' = .ok b ∧
      b.root = some root' ∧ b.tree root' = .ok u ∧ u.same t.reread = true ∧
      a.sameTree b = .ok (!t.callsReference) := by
  obtain ⟨x, t', hread, hshape, htree⟩ := exists_readProgram h
  cases hroot.symm.trans hshape.root_eq
  cases ht.symm.trans htree
  cases readProgram_isPart hread with
  | @block items line hitems =>
  rw [Tree.children_list] at hchains
  have hchain (s) (hs : s ∈ items) : s.Chain := (hitems s hs).chain_of_statement (hchains s hs)
  have hlegible : LegibleItems (items.map Tree.chars) (items.map Tree.reread) :=
    List.forall₂_map_left_iff.mpr ((Tree.forall₂_reread fun s hs => (hchain s hs).readBack).imp
      fun _ _ h => h.expression)
  obtain ⟨us, hus, hsame⟩ := readProgram_statementLines hlegible
  rw [← Tree.toList_programText hchain] at hus
  have hreread : (Tree.list .stmtList us 1).same (Tree.list .stmtList items line).reread = true := by
    rw [Tree.reread_list, Tree.same_list, hsame]
  rw [← Tree.same_reread_list fun s hs => (hchain s hs).same_reread]
  exact exists_reparse hshape ht rfl hus hreread origin'

/-- A call of what a method of a new object gives at an index. -/
def calledElement : Tree :=
  .list .stmtList
    [.fixed .call
      [some (.fixed .dim
        [some (.fixed .methodCall
          [some (.fixed .new [some (.name "Foo" 1), some (.list .argList [.var "$x" 1] 1)] 1),
            some (.name "bar" 1), some (.list .argList [.literal (.int 1) 1] 1)] 1),
          some (.literal (.int 2) 1)] 1),
        some (.list .argList [.literal (.int 3) 1] 1)] 1] 1

theorem reparse_calledElement :
    ∃ a root text b, parseUnit defaultSigil "((new Foo($x))->bar(1)[2])(3);" "unit" = .ok a ∧
      a.root = some root ∧ a.tree root = .ok calledElement ∧
      (∀ s ∈ calledElement.children, s.isChain = true) ∧ a.source = .ok text ∧
      parseUnit defaultSigil text "printed" = .ok b ∧ a.sameTree b = .ok true := by
  have hread : readProgram defaultSigil "((new Foo($x))->bar(1)[2])(3);".toList = .ok calledElement :=
    readProgram_of_toOption (by decide +kernel)
  have hchains : ∀ s ∈ calledElement.children, s.isChain = true := by decide +kernel
  obtain ⟨a, root, ha, hshape, htree⟩ := exists_parseUnit hread "unit"
  obtain ⟨text, b, -, -, htext, hb, -, -, -, hsame⟩ :=
    reparse_chains ha hshape.root_eq htree hchains "printed"
  exact ⟨a, root, text, b, ha, hshape.root_eq, htree, hchains, htext, hb, hsame⟩

def calledVariable : Tree :=
  .list .stmtList [.fixed .call [some (.var "f" 1), some (.list .argList [.var "x" 1] 1)] 1] 1

/-- Parentheses around a variable that is called are lost in print. -/
theorem calledVariable_not_kept :
    ∃ a root b, parseUnit defaultSigil "(f)(x);" "unit" = .ok a ∧ a.root = some root ∧
      a.tree root = .ok calledVariable ∧ (∀ s ∈ calledVariable.children, s.isChain = true) ∧
      a.source = .ok "f(x);" ∧ parseUnit defaultSigil "f(x);" "printed" = .ok b ∧
      a.sameTree b = .ok false := by
  have hvariable : readProgram defaultSigil "(f)(x);".toList = .ok calledVariable :=
    readProgram_of_toOption (by decide +kernel)
  have hfunction : readProgram defaultSigil "f(x);".toList = .ok calledVariable.reread :=
    readProgram_of_toOption (by decide +kernel)
  have htext : calledVariable.programText = "f(x);" := by decide +kernel
  obtain ⟨a, x, ha, hx, htx⟩ := exists_parseUnit hvariable "unit"
  obtain ⟨b, y, hb, hy, hty⟩ := exists_parseUnit hfunction "printed"
  refine ⟨a, x, b, ha, hx.root_eq, htx, by decide +kernel, ?_, hb, ?_⟩
  · rw [source_eq_programText hx.fits hx.root_eq htx rfl, htext]
  · rw [sameTree_eq hx.fits hy.fits hx.root_eq hy.root_eq htx hty]
    rfl

end Arena

end SnippetRewrite
