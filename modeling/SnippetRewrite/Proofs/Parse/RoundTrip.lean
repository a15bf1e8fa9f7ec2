import SnippetRewrite.Proofs.Arena.TreeShape
import SnippetRewrite.Proofs.Parse.Accepted
import SnippetRewrite.Proofs.Parse.ReadBack
import SnippetRewrite.Proofs.Parse.Statement
import SnippetRewrite.Proofs.Parse.Storing

/-!
Programs whose statements are expressions, read from the texts of these: one statement per line, each
with a semicolon behind it.
-/

namespace SnippetRewrite

/-- The text of statements that are expressions, one per line. -/
def statementLines : List (List Char) → List Char
  | [] => []
  | [x] => x ++ [';']
  | x :: y :: rest => x ++ ';' :: '\n' :: statementLines (y :: rest)

variable {t : Tree}

theorem statementLines_cons (x : List Char) (xs : List (List Char)) :
    ∃ gap, (∀ d ∈ gap, isSeparator d = true) ∧
      statementLines (x :: xs) = x ++ [';'] ++ (gap ++ statementLines xs) := by
  cases xs with
  | nil => exact ⟨[], by simp, by simp [statementLines]⟩
  | cons y xs => exact ⟨['\n'], List.forall_mem_singleton.mpr rfl, by simp [statementLines]⟩

variable {xs : List (List Char)} {ts : List Tree}

theorem LegibleItems.lines (h : LegibleItems xs ts) {gap : List Char}
    (hgap : ∀ d ∈ gap, isSeparator d = true) :
    Lines StatementText [] (gap ++ statementLines xs) ts := by
  induction h generalizing gap with
  | nil => exact .stop hgap
  | @cons x t xs ts hx _ ih =>
      obtain ⟨next, hnext, htext⟩ := statementLines_cons x xs
      rw [htext]
      exact .cons hgap (.expression hx) (ih hnext)

/-- Statements that are expressions are read as the program of these. -/
theorem readProgram_statementLines (h : LegibleItems xs ts) :
    ∃ us, readProgram defaultSigil (statementLines xs) = .ok (.list .stmtList us 1) ∧
      Tree.sameSlots (us.map some) (ts.map some) = true :=
  Lines.readProgram (h.lines (List.forall_mem_nil _))

/-! ### Units -/

namespace Arena

variable {a : Arena} {id : NodeId}

/-- The program of a unit is one statement. -/
def IsProgramOf (b : Arena) (stmt : NodeId) : Prop :=
  ∃ root c, b.root = some root ∧ b.cell? root = some c ∧ c.label = .list .stmtList ∧
    c.children = [stmt]

theorem sourceOf_eq (ha : a.Fits) (ht : a.tree id = .ok t) :
    a.sourceOf id = .ok (if a.root = some id ∧ t.label.isStmtList then t.programText else t.text) := by
  obtain ⟨l, hl, rfl, rfl⟩ := exists_holds_of_tree ha ht
  have hprint : a.printable l.root = .ok l.tree := printableWithin_eq hl hl.depth_le_depthBound
  rw [sourceOf, hprint, ok_bind]
  rfl

theorem sourceOf_eq_text (ha : a.Fits) (ht : a.tree id = .ok t) (h : t.label.isStmtList = false) :
    a.sourceOf id = .ok t.text := by
  rw [sourceOf_eq ha ht, if_neg fun hlist => Bool.false_ne_true (h ▸ hlist.2)]

theorem source_eq_programText (ha : a.Fits) (hroot : a.root = some id) (ht : a.tree id = .ok t)
    (h : t.label.isStmtList = true) : a.source = .ok t.programText := by
  rw [source, hroot]
  exact (sourceOf_eq ha ht).trans (by rw [if_pos ⟨hroot, h⟩])

theorem sameTree_eq {b : Arena} {x y : NodeId} {u : Tree} (ha : a.Fits) (hb : b.Fits)
    (hx : a.root = some x) (hy : b.root = some y) (ht : a.tree x = .ok t) (hu : b.tree y = .ok u) :
    a.sameTree b = .ok (t.same u) := by
  obtain ⟨l, hl, rfl, rfl⟩ := exists_holds_of_tree ha ht
  obtain ⟨m, hm, rfl, rfl⟩ := exists_holds_of_tree hb hu
  rw [sameTree, hx, hy]
  exact hl.same_eq hm

/-- The unit of a program that is accepted. -/
theorem exists_parseUnit {sigil : Char} {source : String} (h : readProgram sigil source.toList = .ok t)
    (origin : String) :
    ∃ b root, parseUnit sigil source origin = .ok b ∧ b.TreeShaped root ∧ b.tree root = .ok t := by
  obtain ⟨root, hshape, htree⟩ := ofTree_treeShaped origin (readProgram_isPart h).hasShape
  exact ⟨_, root, by rw [parseUnit_eq, h], hshape, htree⟩

theorem exists_readProgram {sigil : Char} {source origin : String}
    (h : parseUnit sigil source origin = .ok a) :
    ∃ root t, readProgram sigil source.toList = .ok t ∧ a.TreeShaped root ∧ a.tree root = .ok t := by
  cases hread : readProgram sigil source.toList with
  | error f => simp [parseUnit_eq, hread] at h
  | ok t =>
      obtain ⟨b, root, hb, hshape, htree⟩ := exists_parseUnit hread origin
      cases h.symm.trans hb
      exact ⟨root, t, rfl, hshape, htree⟩

/-- A unit that is printed and read again, where what is read is known up to literals. -/
theorem exists_reparse {root : NodeId} {u v : Tree} (h : a.TreeShaped root) (ht : a.tree root = .ok t)
    (hlist : t.label.isStmtList = true)
    (hread : readProgram defaultSigil t.programText.toList = .ok u) (hu : u.same v = true)
    (origin : String) :
    ∃ text b root' u, a.source = .ok text ∧ parseUnit defaultSigil text origin = .ok b ∧
      b.root = some root' ∧ b.tree root' = .ok u ∧ u.same v = true ∧
      a.sameTree b = .ok (v.same t) := by
  obtain ⟨b, root', hb, hshape, htree⟩ := exists_parseUnit hread origin
  have hsource := source_eq_programText h.fits h.root_eq ht hlist
  refine ⟨_, b, root', u, hsource, hb, hshape.root_eq, htree, hu, ?_⟩
  rw [sameTree_eq h.fits hshape.fits h.root_eq hshape.root_eq ht htree, Tree.same_comm,
    Tree.same_congr hu]

/-- Text that is read as one statement makes a unit of that statement. -/
theorem exists_parseUnit_statement {source : String} {v : Tree} {line : Nat} (origin : String)
    (h : readProgram defaultSigil source.toList = .ok (.list .stmtList [v] line)) :
    ∃ b stmt, parseUnit defaultSigil source origin = .ok b ∧ b.IsProgramOf stmt ∧ b.Fits ∧
      b.tree stmt = .ok v := by
  obtain ⟨b, root, hb, hshape, htree⟩ := exists_parseUnit h origin
  obtain ⟨l, hl, rfl, hltree⟩ := exists_holds_of_tree hshape.fits htree
  obtain ⟨id, line', label, slots⟩ := l
  simp only [Placement.tree, Placement.treesIn_eq_map, Tree.list, List.map_cons, List.map_nil,
    Tree.node.injEq, List.map_eq_singleton_iff, Option.map_eq_some_iff] at hltree
  obtain ⟨-, rfl, _, rfl, s, rfl, rfl⟩ := hltree
  obtain ⟨c, hc, hchildren⟩ := hl.children
  obtain ⟨c', hc', -, -, hlabel, -⟩ := hl.cell
  rw [hc] at hc'
  cases hc'
  exact ⟨b, s.root, hb, ⟨_, c, hshape.root_eq, hc, hlabel, hchildren⟩, hshape.fits,
    (hl.below.holds List.mem_cons_self).tree_eq⟩

theorem exists_isProgramOf {source : String} {v : Tree} {line : Nat} (origin : String) (ha : a.Fits)
    (ht : a.tree id = .ok t)
    (h : readProgram defaultSigil source.toList = .ok (.list .stmtList [v] line))
    (hv : v.same t = true) :
    ∃ b stmt, parseUnit defaultSigil source origin = .ok b ∧ b.IsProgramOf stmt ∧
      b.same stmt a id = .ok true := by
  obtain ⟨b, stmt, hb, hstmt, hfits, hvtree⟩ := exists_parseUnit_statement origin h
  obtain ⟨l, hl, rfl, rfl⟩ := exists_holds_of_tree hfits hvtree
  obtain ⟨m, hm, rfl, rfl⟩ := exists_holds_of_tree ha ht
  exact ⟨b, l.root, hb, hstmt, by rw [hl.same_eq hm, hv]⟩

/-- A formula is read back from its text with a semicolon behind it: as a program of one statement,
which is that formula. -/
theorem parseUnit_formula (ha : a.Fits) (ht : a.tree id = .ok t) (h : t.IsFormula)
    (origin : String) :
    ∃ text b stmt, a.sourceOf id = .ok text ∧ parseUnit defaultSigil (text ++ ";") origin = .ok b ∧
      b.IsProgramOf stmt ∧ b.same stmt a id = .ok true := by
  have hlabel : t.label.isStmtList = false := by cases h <;> rfl
  obtain ⟨us, hus, hsame⟩ := readProgram_statementLines (.cons h.readBack.expression .nil)
  have hsource : (t.text ++ ";").toList = statementLines [t.chars] := by
    rw [String.toList_append]
    rfl
  obtain ⟨v, rfl⟩ : ∃ v, us = [v] :=
    List.length_eq_one_iff.mp (by simpa using Tree.length_eq_of_sameSlots hsame)
  have hv : v.same t = true := by simpa [Tree.sameSlots] using hsame
  obtain ⟨b, stmt, hb, hstmt⟩ := exists_isProgramOf origin ha ht (hsource ▸ hus) hv
  exact ⟨t.text, b, stmt, sourceOf_eq_text ha ht hlabel, hb, hstmt⟩

/-- A negated variable raised to a number that is negated twice. -/
def powerOfNegations : Tree :=
  .fixed (.binary .pow)
    [some (.fixed (.unary .neg) [some (.var "$a" 1)] 1),
      some (.fixed (.unary .neg) [some (.fixed (.unary .neg) [some (.literal (.int 1) 1)] 1)] 1)] 1

example : powerOfNegations.text = "(-$a) ** - -1" := by decide +kernel

theorem isFormula_powerOfNegations : powerOfNegations.IsFormula := by
  have hvar : IsVariableName defaultSigil "$a" :=
    ⟨⟨⟨'$', ['a'], rfl, by decide, List.all_iff_forall_prop.mp (by decide)⟩, by decide⟩, by decide⟩
  have hneg {t : Tree} (h : t.IsFormula) :
      (Tree.fixed (.unary .neg) ([t].map some) 1).IsFormula :=
    .operation rfl rfl (by simpa using h)
  have hpow {t u : Tree} (ht : t.IsFormula) (hu : u.IsFormula) :
      (Tree.fixed (.binary .pow) ([t, u].map some) 1).IsFormula :=
    .operation rfl rfl (by simpa using ⟨ht, hu⟩)
  exact hpow (hneg (.var hvar)) (hneg (hneg (.literal ⟨by decide, by decide⟩)))

theorem parseUnit_powerOfNegations :
    ∃ root text b stmt, (ofTree "unit" powerOfNegations).Fits ∧
      (ofTree "unit" powerOfNegations).tree root = .ok powerOfNegations ∧
      powerOfNegations.IsFormula ∧ (ofTree "unit" powerOfNegations).sourceOf root = .ok text ∧
      parseUnit defaultSigil (text ++ ";") "printed" = .ok b ∧ b.IsProgramOf stmt ∧
      b.same stmt (ofTree "unit" powerOfNegations) root = .ok true := by
  obtain ⟨root, hshape, htree⟩ := ofTree_treeShaped "unit" (t := powerOfNegations) (by decide)
  obtain ⟨text, b, stmt, hread⟩ :=
    parseUnit_formula hshape.fits htree isFormula_powerOfNegations "printed"
  exact ⟨root, text, b, stmt, hshape.fits, htree, isFormula_powerOfNegations, hread⟩

end Arena

end SnippetRewrite
