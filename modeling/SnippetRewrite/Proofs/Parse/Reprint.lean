import SnippetRewrite.Proofs.Parse.Respelled
import SnippetRewrite.Proofs.Parse.RoundTrip

/-!
Programs of control structures and of declarations, printed and read again. Nothing in print keeps an
`else` from an `if` inside the branch in front of it, and an empty list of captured variables leaves
no trace, so what is read is what the text spells. A default that is an assignment is printed without
the parentheses that it needs; what is printed then is no program.
-/

namespace SnippetRewrite

namespace Tree

variable {t : Tree} {p : Label → List (Option Tree) → Bool} {q : Label → Bool}

/-- No node is of a kind that none of the labels allows. -/
theorem anyNode_eq_false_of_consistsOf (h : ∀ label slots, q label = true → p label slots = false)
    (ht : t.consistsOf q = true) : t.anyNode p = false := by
  induction t using Tree.induct with
  | node line label slots ih =>
      obtain ⟨hlabel, hslots⟩ := consistsOf_node.mp ht
      exact anyNode_eq_false.mpr ⟨h label slots hlabel, fun t hmem => ih t hmem (hslots t hmem)⟩

/-- Control structures have no parameters. -/
theorem assignsDefault_of_control (ht : t.consistsOf Label.isControl = true) :
    t.assignsDefault = false := by
  refine anyNode_eq_false_of_consistsOf (fun label slots hlabel => ?_) ht
  unfold defaultAssigned
  split
  · cases hlabel
  · rfl

/-- Control structures capture no variables. -/
theorem capturesNothing_of_control (ht : t.consistsOf Label.isControl = true) :
    t.capturesNothing = false := by
  refine anyNode_eq_false_of_consistsOf (fun label slots hlabel => ?_) ht
  unfold usesNothing
  split
  · cases hlabel
  · rfl

/-- Declarations have no `else`. -/
theorem danglesElse_of_declaration (ht : t.consistsOf Label.isDeclaration = true) :
    t.danglesElse = false := by
  refine anyNode_eq_false_of_consistsOf (fun label slots hlabel => ?_) ht
  unfold elseDangles
  split
  · cases hlabel
  · rfl

theorem Plain.of_control (ht : t.consistsOf Label.isControl = true) : t.Plain :=
  ⟨consistsOf_mono (fun label h => by rw [h, Bool.true_or]) ht, assignsDefault_of_control ht⟩

theorem Plain.of_declaration (ht : t.consistsOf Label.isDeclaration = true)
    (hdefaults : t.assignsDefault = false) : t.Plain :=
  ⟨consistsOf_mono (fun label h => by rw [h, Bool.or_true]) ht, hdefaults⟩

/-- The only numbers in plain trees are integers. -/
theorem Plain.hasNan (h : t.Plain) : t.hasNan = false := by
  induction t using Tree.induct with
  | node line label slots ih =>
      have hlabel : label.hasNan = false := by
        cases label with
        | leaf kind value => cases value <;> first
          | rfl
          | exact absurd h.kind (by cases kind <;> simp [Label.isControl, Label.isDeclaration,
              Label.isSimple])
        | _ => rfl
      rw [Tree.hasNan, hlabel, Bool.false_or, hasNanIn_eq_false]
      exact fun t ht => ih t ht (h.slot ht)

/-! ### Texts of programs -/

theorem lines_programText {items : List Tree} {line : Nat} (h : ∀ t ∈ items, t.ReadsStatement) :
    Lines StatementText [] (list .stmtList items line).programText.toList (items.map spelled) := by
  have hlines : ∀ gap : List Char, (∀ d ∈ gap, isSeparator d = true) →
      Lines StatementText [] (gap ++ (String.intercalate "\n"
        (items.map fun t => t.printed.statement 0)).toList) (items.map spelled) := by
    induction items with
    | nil => exact fun gap hgap => .stop hgap
    | cons t items ih =>
        intro gap hgap
        have hwritten := h t List.mem_cons_self 0
        have hitem : StatementText (t.printed.statement 0).toList t.spelled :=
          ⟨hwritten.begins, hwritten.tells⟩
        have hitems : ∀ u ∈ items, u.ReadsStatement := fun u hu => h u (List.mem_cons_of_mem _ hu)
        cases items with
        | nil =>
            have hend : Lines StatementText [] ([] ++ []) [] := .stop (List.forall_mem_nil _)
            simpa using Lines.cons hgap hitem hend
        | cons u items =>
            have hrest := ih hitems ['\n'] (List.forall_mem_singleton.mpr rfl)
            simpa using Lines.cons hgap hitem hrest
  rw [programText, children_list]
  exact hlines [] (List.forall_mem_nil _)

end Tree

namespace Arena

variable {a : Arena} {t : Tree} {source origin : String} {root : NodeId}

/-- Programs of control structures and declarations are printed as texts that are read again as what
they spell. -/
theorem reparse_plain (h : parseUnit defaultSigil source origin = .ok a) (hroot : a.root = some root)
    (ht : a.tree root = .ok t) (hplain : t.Plain) (origin' : String) :
    ∃ text b root' u, a.source = .ok text ∧ parseUnit defaultSigil text origin' = .ok b ∧
      b.root = some root' ∧ b.tree root' = .ok u ∧ u.same t.spelled = true ∧
      a.sameTree b = .ok (!(t.danglesElse || t.capturesNothing)) := by
  obtain ⟨x, t', hread, hshape, htree⟩ := exists_readProgram h
  cases hroot.symm.trans hshape.root_eq
  cases ht.symm.trans htree
  cases readProgram_isPart hread with
  | @block items line hitems =>
  have hreads (s) (hs : s ∈ items) : s.ReadsStatement := (hitems s hs).reads (hplain.item hs)
  obtain ⟨us, hus, hsame⟩ := (Tree.lines_programText hreads).readProgram
  have hspelled : (Tree.list .stmtList us 1).same (Tree.list .stmtList items line).spelled = true := by
    rw [Tree.spelled_list, Tree.same_list, hsame]
  rw [← Tree.same_spelled hplain.hasNan]
  exact exists_reparse hshape ht rfl hus hspelled origin'

/-! ### Control structures -/

/-- Programs of control structures are printed as texts that are read again. What is read differs from
what was printed in nothing but where an `else` belongs: behind a branch that takes it, it goes to the
last `if` of that branch that has none. The two are the same exactly if no `else` stands there. -/
theorem reparse_controls (h : parseUnit defaultSigil source origin = .ok a)
    (hroot : a.root = some root) (ht : a.tree root = .ok t)
    (hcontrol : t.consistsOf Label.isControl = true) (origin' : String) :
    ∃ text b root' u, a.source = .ok text ∧ parseUnit defaultSigil text origin' = .ok b ∧
      b.root = some root' ∧ b.tree root' = .ok u ∧ u.same t.spelled = true ∧
      a.sameTree b = .ok (!t.danglesElse) := by
  have hplain := reparse_plain h hroot ht (.of_control hcontrol) origin'
  rwa [Tree.capturesNothing_of_control hcontrol, Bool.or_false] at hplain

/-- A loop over an `if` whose branch is a block, and a `return` behind it. -/
def loopOverIf : Tree :=
  .list .stmtList
    [.fixed .whileLoop
      [some (.fixed (.binary .less) [some (.var "$a" 1), some (.literal (.int 9) 1)] 1),
        some (.fixed .ifElse
          [some (.var "$b" 1),
            some (.list .stmtList
              [.fixed .ifElse
                [some (.var "$c" 1), none, none] 1,
                .fixed .echo [some (.var "$a" 1)] 1] 1),
            some (.fixed .forLoop
              [none, none, some (.fixed (.assignOp .add)
                [some (.var "$a" 1), some (.literal (.int 1) 1)] 1), none] 1)] 1)] 1,
      .fixed .ret [none] 1] 1

theorem reparse_loopOverIf :
    ∃ a root text b, parseUnit defaultSigil
        "while ($a < 9) if ($b) \x7b if ($c); echo $a; \x7d else for (;; $a += 1); return;" "unit" =
          .ok a ∧
      a.root = some root ∧ a.tree root = .ok loopOverIf ∧
      loopOverIf.consistsOf Label.isControl = true ∧ a.source = .ok text ∧
      parseUnit defaultSigil text "printed" = .ok b ∧ a.sameTree b = .ok true := by
  have hread : readProgram defaultSigil
      "while ($a < 9) if ($b) \x7b if ($c); echo $a; \x7d else for (;; $a += 1); return;".toList =
        .ok loopOverIf := readProgram_of_toOption (by decide +kernel)
  have hcontrol : loopOverIf.consistsOf Label.isControl = true := by decide +kernel
  obtain ⟨a, root, ha, hshape, htree⟩ := exists_parseUnit hread "unit"
  obtain ⟨text, b, -, -, htext, hb, -, -, -, hsame⟩ :=
    reparse_controls ha hshape.root_eq htree hcontrol "printed"
  exact ⟨a, root, text, b, ha, hshape.root_eq, htree, hcontrol, htext, hb, hsame⟩

/-- An `else` behind a branch that is an `if` without `else`. -/
def danglingElse : Tree :=
  .list .stmtList
    [.fixed .ifElse
      [some (.var "a" 1), some (.fixed .ifElse [some (.var "b" 1), some (.var "x" 1), none] 1),
        some (.var "y" 1)] 1] 1

/-- An empty `else` is lost in print, and with it the place of the `else` behind it. -/
theorem danglingElse_not_kept :
    ∃ a root b, parseUnit defaultSigil "if (a) if (b) x; else ; else y;" "unit" = .ok a ∧
      a.root = some root ∧ a.tree root = .ok danglingElse ∧
      danglingElse.consistsOf Label.isControl = true ∧ a.source = .ok "if (a) if (b) x; else y;" ∧
      parseUnit defaultSigil "if (a) if (b) x; else y;" "printed" = .ok b ∧
      a.sameTree b = .ok false := by
  have hread : readProgram defaultSigil "if (a) if (b) x; else ; else y;".toList = .ok danglingElse :=
    readProgram_of_toOption (by decide +kernel)
  have hprinted : readProgram defaultSigil "if (a) if (b) x; else y;".toList =
      .ok danglingElse.spelled := readProgram_of_toOption (by decide +kernel)
  have htext : danglingElse.programText = "if (a) if (b) x; else y;" := by decide +kernel
  obtain ⟨a, x, ha, hx, htx⟩ := exists_parseUnit hread "unit"
  obtain ⟨b, y, hb, hy, hty⟩ := exists_parseUnit hprinted "printed"
  refine ⟨a, x, b, ha, hx.root_eq, htx, by decide +kernel, ?_, hb, ?_⟩
  · rw [source_eq_programText hx.fits hx.root_eq htx rfl, htext]
  · rw [sameTree_eq hx.fits hy.fits hx.root_eq hy.root_eq htx hty]
    rfl

/-! ### Declarations -/

/-- Programs of declarations in which no default is an assignment are printed as texts that are read
again. What is read differs from what was printed in nothing but that lists of captured variables are
missing where they are empty. The two are the same exactly if no such list is empty. -/
theorem reparse_declarations (h : parseUnit defaultSigil source origin = .ok a)
    (hroot : a.root = some root) (ht : a.tree root = .ok t)
    (hdeclaration : t.consistsOf Label.isDeclaration = true) (hdefaults : t.assignsDefault = false)
    (origin' : String) :
    ∃ text b root' u, a.source = .ok text ∧ parseUnit defaultSigil text origin' = .ok b ∧
      b.root = some root' ∧ b.tree root' = .ok u ∧ u.same t.spelled = true ∧
      a.sameTree b = .ok (!t.capturesNothing) := by
  have hplain := reparse_plain h hroot ht (.of_declaration hdeclaration hdefaults) origin'
  rwa [Tree.danglesElse_of_declaration hdeclaration, Bool.false_or] at hplain

/-- A class with a method without a body, and a closure over a variable. -/
def methodAndClosure : Tree :=
  .list .stmtList
    [.node 1 (.decl .classDef "A" 0)
      [none, some (.list .nameList [.name "B" 1] 1),
        some (.list .stmtList
          [.node 1 (.decl .method "f" 8)
            [some (.list .paramList
                [.fixed .param [some (.name "$x" 1), some (.literal (.int 1) 1)] 1] 1),
              none, none, some (.name "T" 1)]] 1)],
      .fixed .assign
        [some (.var "$g" 1),
          some (.node 1 (.decl .closure closureName 0)
            [some (.list .paramList [] 1), some (.list .closureUses [.var "$x" 1] 1),
              some (.list .stmtList [] 1), none])] 1] 1

theorem reparse_methodAndClosure :
    ∃ a root text b, parseUnit defaultSigil
        "class A implements B \x7b static function f($x = 1): T; \x7d $g = function () use ($x) \x7b\x7d;"
        "unit" = .ok a ∧
      a.root = some root ∧ a.tree root = .ok methodAndClosure ∧
      methodAndClosure.consistsOf Label.isDeclaration = true ∧
      methodAndClosure.assignsDefault = false ∧ a.source = .ok text ∧
      parseUnit defaultSigil text "printed" = .ok b ∧ a.sameTree b = .ok true := by
  have hread : readProgram defaultSigil
      "class A implements B \x7b static function f($x = 1): T; \x7d $g = function () use ($x) \x7b\x7d;".toList
        = .ok methodAndClosure := readProgram_of_toOption (by decide +kernel)
  have hdeclaration : methodAndClosure.consistsOf Label.isDeclaration = true := by decide +kernel
  have hdefaults : methodAndClosure.assignsDefault = false := by decide +kernel
  obtain ⟨a, root, ha, hshape, htree⟩ := exists_parseUnit hread "unit"
  obtain ⟨text, b, -, -, htext, hb, -, -, -, hsame⟩ :=
    reparse_declarations ha hshape.root_eq htree hdeclaration hdefaults "printed"
  exact ⟨a, root, text, b, ha, hshape.root_eq, htree, hdeclaration, hdefaults, htext, hb, hsame⟩

def assignedDefault : Tree :=
  .list .stmtList
    [.node 1 (.decl .function "f" 0)
      [some (.list .paramList
          [.fixed .param
            [some (.name "$a" 1),
              some (.fixed .assign [some (.var "$b" 1), some (.literal (.int 1) 1)] 1)] 1] 1),
        none, some (.list .stmtList [] 1), none]] 1

/-- Parentheses around a default are lost in print, and without them no assignment can stand there. -/
theorem assignedDefault_not_read :
    ∃ a root, parseUnit defaultSigil "function f($a = ($b = 1)) \x7b\x7d" "unit" = .ok a ∧
      a.root = some root ∧ a.tree root = .ok assignedDefault ∧
      assignedDefault.consistsOf Label.isDeclaration = true ∧
      a.source = .ok "function f($a = $b = 1) \x7b\x7d" ∧
      ∀ b, parseUnit defaultSigil "function f($a = $b = 1) \x7b\x7d" "printed" ≠ .ok b := by
  have hread : readProgram defaultSigil "function f($a = ($b = 1)) \x7b\x7d".toList =
      .ok assignedDefault := readProgram_of_toOption (by decide +kernel)
  have hnone : (readProgram defaultSigil "function f($a = $b = 1) \x7b\x7d".toList).toOption = none := by
    decide +kernel
  have htext : assignedDefault.programText = "function f($a = $b = 1) \x7b\x7d" := by decide +kernel
  obtain ⟨a, x, ha, hx, htx⟩ := exists_parseUnit hread "unit"
  refine ⟨a, x, ha, hx.root_eq, htx, by decide +kernel, ?_, fun b hb => ?_⟩
  · rw [source_eq_programText hx.fits hx.root_eq htx rfl, htext]
  · obtain ⟨-, t, hprinted, -⟩ := exists_readProgram hb
    rw [hprinted] at hnone
    cases hnone

end Arena

end SnippetRewrite
