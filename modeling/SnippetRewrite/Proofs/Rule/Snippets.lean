import Mathlib.Data.List.Forall2
import Mathlib.Logic.Relation
import SnippetRewrite.Proofs.Rule.Marking

/-!
What becomes of the text of a snippet. The text is read as a program, as it is or with a semicolon
behind it; statement lists with one statement are entered; then each name that is made of the sigil
and a name of its own becomes a capture point, together with the variable directly around it, if there
is one. The relations below say so without a walk. A pattern is empty if what is left is a list
without items.
-/

namespace SnippetRewrite

/-- The text of a name is all that such a leaf holds. -/
theorem Label.eq_ofName {label : Label} {text : String} (h : label.nameText? = some text) :
    label = .ofName text := by
  unfold nameText? at h
  split at h
  · rename_i value
    cases value <;> cases h
    rfl
  · cases h

namespace Tree

variable {sigil : Char} {t u v only : Tree} {name : String}

/-! ### Entering lists -/

def Encloses (t only : Tree) : Prop :=
  ∃ line, t = list .stmtList [only] line

theorem unwrapSingle_of_encloses (h : t.Encloses only) : t.unwrapSingle = only.unwrapSingle := by
  obtain ⟨line, rfl⟩ := h
  rfl

/-- Entering statement lists with one statement leads to the end of that. -/
theorem unwrapSingle_spec (t : Tree) :
    Relation.ReflTransGen Encloses t t.unwrapSingle ∧ ∀ u, ¬ t.unwrapSingle.Encloses u := by
  induction t using unwrapSingle.induct with
  | case1 line only ih => exact ⟨.head ⟨line, rfl⟩ ih.1, ih.2⟩
  | case2 t hne =>
      rw [unwrapSingle.eq_2 t hne]
      refine ⟨.refl, ?_⟩
      rintro u ⟨line, hu⟩
      exact hne line u hu

theorem unwrapSingle_of_reaches (h : Relation.ReflTransGen Encloses t u) :
    t.unwrapSingle = u.unwrapSingle := by
  induction h with
  | refl => rfl
  | tail _ hstep ih => exact ih.trans (unwrapSingle_of_encloses hstep)

theorem unwrapSingle_empty (kind : ListKind) (line : Nat) :
    (list kind [] line).unwrapSingle = list kind [] line := by
  cases kind <;> rfl

/-! ### Capture points -/

/-- A leaf with a name that is made of the sigil and the name of a capture. -/
def SpellsCapture (sigil : Char) (name : String) (t : Tree) : Prop :=
  name ≠ "" ∧ ∃ line, t = .name (String.ofList (sigil :: name.toList)) line

/-- A name for a capture, or a variable directly around one. -/
inductive StandsFor (sigil : Char) (name : String) : Tree → Prop
  | name {t : Tree} (h : t.SpellsCapture sigil name) : StandsFor sigil name t
  | var {t : Tree} {line : Nat} (h : t.SpellsCapture sigil name) :
    StandsFor sigil name (.fixed .var [some t] line)

/-- The second tree has one capture point, on the same line, in the place of each node of the first
one that stands for a capture, and is otherwise the same. -/
inductive Marked (sigil : Char) : Tree → Tree → Prop
  | capture {t : Tree} {name : String} (h : t.StandsFor sigil name) :
    Marked sigil t (.node t.line (.capture name) [])
  | node {line : Nat} {label : Label} {slots slots' : List (Option Tree)}
    (h : ∀ name, ¬ (Tree.node line label slots).StandsFor sigil name)
    (hslots : List.Forall₂ (Option.Rel (Marked sigil)) slots slots') :
    Marked sigil (.node line label slots) (.node line label slots')

theorem captureName?_eq_some_iff {text : String} :
    SnippetRewrite.captureName? sigil text = some name ↔
      name ≠ "" ∧ text = String.ofList (sigil :: name.toList) := by
  have hspelled :
      text = String.ofList (sigil :: name.toList) ↔ text.toList = sigil :: name.toList := by
    rw [← String.toList_inj, String.toList_ofList]
  rw [hspelled, SnippetRewrite.captureName?]
  cases text.toList with
  | nil => simp
  | cons first rest =>
      simp only [Option.ite_none_right_eq_some, Option.some.injEq, List.cons.injEq]
      constructor
      · rintro ⟨⟨rfl, hrest⟩, rfl⟩
        exact ⟨by simpa using hrest, rfl, String.toList_ofList.symm⟩
      · rintro ⟨hname, rfl, rfl⟩
        exact ⟨⟨rfl, by simpa using hname⟩, String.ofList_toList⟩

theorem label_captureName?_iff (h : t.hasShape = true) :
    t.label.captureName? sigil = some name ↔ t.SpellsCapture sigil name := by
  obtain ⟨line, label, slots⟩ := t
  constructor
  · intro hname
    obtain ⟨text, htext, hcapture⟩ := Option.bind_eq_some_iff.mp hname
    cases Label.eq_ofName htext
    cases List.length_eq_zero_iff.mp ((hasShape_node.mp h).2 0 rfl)
    obtain ⟨hne, rfl⟩ := captureName?_eq_some_iff.mp hcapture
    exact ⟨hne, line, rfl⟩
  · rintro ⟨hne, _, heq⟩
    cases heq
    exact captureName?_eq_some_iff.mpr ⟨hne, rfl⟩

theorem captureName?_iff (h : t.hasShape = true) :
    t.captureName? sigil = some name ↔ t.StandsFor sigil name := by
  cases hvar : t.label.isVar with
  | false =>
      rw [captureName?_of_isVar hvar, label_captureName?_iff h]
      refine ⟨.name, fun hstands => ?_⟩
      cases hstands with
      | name h => exact h
      | var => cases hvar
  | true =>
      obtain ⟨line, label, slots⟩ := t
      cases Label.eq_var_of_isVar hvar
      obtain ⟨hslots, harity⟩ := hasShape_node.mp h
      obtain ⟨o, rfl⟩ := List.length_eq_one_iff.mp (harity 1 rfl)
      constructor
      · intro hname
        cases o with
        | none => cases hname
        | some k => exact .var ((label_captureName?_iff (hslots k List.mem_cons_self)).mp hname)
      · intro hstands
        cases hstands with
        | name h =>
            obtain ⟨-, _, heq⟩ := h
            cases heq
        | var hk => exact (label_captureName?_iff (hslots _ List.mem_cons_self)).mpr hk

theorem forall₂_rel_iff {R : Tree → Tree → Prop} {f : Tree → Tree} {xs ys : List (Option Tree)}
    (h : ∀ t, some t ∈ xs → ∀ u, R t u ↔ u = f t) :
    List.Forall₂ (Option.Rel R) xs ys ↔ ys = xs.map (Option.map f) := by
  induction xs generalizing ys with
  | nil => simp
  | cons o xs ih =>
      have hrest := fun t ht => h t (List.mem_cons_of_mem _ ht)
      have hfirst (o' : Option Tree) : Option.Rel R o o' ↔ o' = o.map f := by
        cases o <;> cases o' <;> simp [h]
      cases ys with
      | nil => simp
      | cons o' ys => simp [hfirst, ih hrest]

/-- Marking is the only way to put capture points into the places of nodes that stand for captures. -/
theorem marked_iff (h : t.hasShape = true) :
    t.Marked sigil u ↔ u = t.markCaptures sigil := by
  induction t using induct generalizing u with
  | node line label slots ih =>
      obtain ⟨hslots, -⟩ := hasShape_node.mp h
      cases hname : captureName? sigil (.node line label slots) with
      | some name =>
          have hstands := (captureName?_iff h).mp hname
          rw [markCaptures_of_some hname]
          constructor
          · intro hmarked
            cases hmarked with
            | capture hother =>
                cases hname.symm.trans ((captureName?_iff h).mpr hother)
                rfl
            | node hnone => exact absurd hstands (hnone name)
          · rintro rfl
            exact .capture hstands
      | none =>
          have hnone (name : String) : ¬ (node line label slots).StandsFor sigil name := by
            rw [← captureName?_iff h, hname]
            exact nofun
          rw [markCaptures_of_none hname, markSlots_eq_map]
          have hbelow (slots' : List (Option Tree)) :
              List.Forall₂ (Option.Rel (Marked sigil)) slots slots' ↔ slots' = _ :=
            forall₂_rel_iff fun t ht u => ih t ht (hslots t ht)
          constructor
          · intro hmarked
            cases hmarked with
            | capture hstands => exact absurd hstands (hnone _)
            | node _ hrel => exact congrArg _ ((hbelow _).mp hrel)
          · rintro rfl
            exact .node hnone ((hbelow _).mpr rfl)

/-- No name for a capture is left. -/
theorem labels_markCaptures (sigil : Char) (t : Tree) :
    ∀ label ∈ (t.markCaptures sigil).labels, label.captureName? sigil = none := by
  induction t using induct with
  | node line label slots ih =>
      cases hname : captureName? sigil (.node line label slots) with
      | some name =>
          rw [markCaptures_of_some hname, labels_node]
          simp [Label.captureName?, Label.nameText?]
      | none =>
          rw [markCaptures_of_none hname, markSlots_eq_map, labels_node]
          intro other hmem
          rcases List.mem_cons.mp hmem with rfl | hmem
          · cases hvar : other.isVar with
            | true =>
                cases Label.eq_var_of_isVar hvar
                rfl
            | false =>
                have hother : (node line other slots).label.isVar = false := hvar
                exact (captureName?_of_isVar hother).symm.trans hname
          · obtain ⟨o, ho, hother⟩ := List.mem_flatMap.mp hmem
            obtain ⟨o', ho', rfl⟩ := List.mem_map.mp ho
            cases o' with
            | none => cases hother
            | some t => exact ih t ho' other hother

end Tree

namespace SnippetReader

variable {r : SnippetReader} {source : String} {s : Snippet} {t : Tree}

/-! ### What a snippet becomes -/

/-- A text is read as a program as it is, or else with a semicolon behind it. -/
def ReadsAs (r : SnippetReader) (source : String) (t : Tree) : Prop :=
  readProgram r.readerSigil source.toList = .ok t ∨
    (∃ f, readProgram r.readerSigil source.toList = .error f) ∧
      readProgram r.readerSigil (source ++ "\n;").toList = .ok t

theorem program_iff_readsAs : r.program source = .ok t ↔ r.ReadsAs source t := by
  cases hread : readProgram r.readerSigil source.toList with
  | ok u => simp [ReadsAs, program, hread]
  | error f =>
      cases hclosed : readProgram r.readerSigil (source ++ "\n;").toList <;>
        simp only [ReadsAs, program, hread, hclosed] <;> simp

/-- What a snippet is, in terms of its text. -/
structure Describes (r : SnippetReader) (source : String) (s : Snippet) : Prop where
  tree : ∃ t only, r.ReadsAs source t ∧ Relation.ReflTransGen Tree.Encloses t only ∧
    (∀ u, ¬ only.Encloses u) ∧ only.Marked r.sigil s.tree
  captures : s.captures = s.tree.capturePoints.eraseDups
  unmarked : ∀ name, name ≠ "" →
    Label.ofName (String.ofList (r.sigil :: name.toList)) ∉ s.tree.labels
  arena : ∃ root, s.arena.TreeShaped root ∧ s.arena.tree root = .ok s.tree ∧
    s.arena.liveCount = s.tree.size

/-- A snippet that compiles is what its text says: the statement inside the program, with a capture
point for each name that stands for a capture and for each variable around such a name, and nothing
else changed. Its captures are the names of the capture points, each once, in the order in which they
first occur in preorder, and its arena holds its tree and nothing else. -/
theorem template_describes {u : Template} (h : r.template source = .ok u) :
    r.Describes source u.toSnippet := by
  obtain ⟨s, hs, h⟩ := bind_eq_ok.mp h
  cases h
  obtain ⟨k, hk, howns, hroot, hcaptures⟩ := exists_placement hs
  obtain ⟨t, hprogram, -, htree, -⟩ := exists_program hs
  have hshape := Tree.hasShape_unwrapSingle (program_isPart hprogram).hasShape
  obtain ⟨hreaches, hend⟩ := t.unwrapSingle_spec
  refine ⟨⟨t, t.unwrapSingle, program_iff_readsAs.mp hprogram, hreaches, hend,
    (Tree.marked_iff hshape).mpr htree⟩, hcaptures, fun name hname hmem => ?_,
    ⟨k.root, howns.treeShaped hroot, ?_, ?_⟩⟩
  · have hnone := Tree.labels_markCaptures r.sigil t.unwrapSingle _ (htree ▸ hmem)
    have hsome : SnippetRewrite.captureName? r.sigil _ = some name :=
      Tree.captureName?_eq_some_iff.mpr ⟨hname, rfl⟩
    cases hsome.symm.trans hnone
  · rw [howns.holds_all.tree_eq, hk]
  · rw [howns.liveCount_eq, ← hk, Placement.size_tree]

def callAndArgument : Tree :=
  .fixed (.binary .add)
    [some (.fixed .call [some (.node 1 (.capture "f") []),
      some (.list .argList [.node 1 (.capture "x") []] 1)] 1),
      some (.node 1 (.capture "x") [])] 1

/-- A capture that occurs twice is listed once. -/
theorem template_callAndArgument :
    ∃ u, (ofSigil defaultSigil).template "$f($x) + $x" = .ok u ∧
      (ofSigil defaultSigil).Describes "$f($x) + $x" u.toSnippet ∧ u.tree = callAndArgument ∧
      u.captures = ["f", "x"] := by
  have hsides : (((ofSigil defaultSigil).template "$f($x) + $x").toOption.map
      fun u => (u.tree, u.captures)) = some (callAndArgument, ["f", "x"]) := by
    decide +kernel
  cases h : (ofSigil defaultSigil).template "$f($x) + $x" with
  | error e =>
      rw [h] at hsides
      cases hsides
  | ok u =>
      simp only [h, Except.toOption, Option.map_some, Option.some.injEq, Prod.mk.injEq] at hsides
      exact ⟨u, rfl, template_describes h, hsides⟩

end SnippetReader

/-! ### Empty patterns -/

namespace Tree

variable {sigil : Char} {t u : Tree} {kind : ListKind} {line : Nat}

theorem IsPart.listKind_of_expression (h : t.IsPart sigil .expression)
    (hlabel : t.label = .list kind) : kind = .array := by
  cases h <;> cases hlabel
  rfl

/-- The lists among statements are blocks and arrays. -/
theorem IsPart.listKind_of_statement (h : t.IsPart sigil .statement)
    (hlabel : t.label = .list kind) : kind = .stmtList ∨ kind = .array := by
  cases h with
  | ofExpression h => exact .inr (h.listKind_of_expression hlabel)
  | ofBlock h =>
      cases h
      cases hlabel
      exact .inl rfl
  | _ => cases hlabel

theorem IsPart.statement_of_encloses (h : t.IsPart sigil .statement) (hu : t.Encloses u) :
    u.IsPart sigil .statement := by
  obtain ⟨line, ht⟩ := hu
  cases h with
  | ofExpression h => cases h.listKind_of_expression (congrArg label ht)
  | ofBlock h =>
      cases h with
      | @block items _ hitems =>
          have hchildren := congrArg children ht
          rw [children_list, children_list] at hchildren
          exact hitems u (hchildren ▸ List.mem_cons_self)
  | _ => cases ht

theorem IsPart.statement_of_reaches (h : t.IsPart sigil .statement)
    (hu : Relation.ReflTransGen Encloses t u) : u.IsPart sigil .statement := by
  induction hu with
  | refl => exact h
  | tail _ hstep ih => exact ih.statement_of_encloses hstep

theorem markCaptures_eq_list_iff :
    t.markCaptures sigil = list kind [] line ↔ t = list kind [] line := by
  obtain ⟨line', label, slots⟩ := t
  cases hname : captureName? sigil (.node line' label slots) with
  | some name =>
      rw [markCaptures_of_some hname]
      constructor
      · intro h
        cases h
      · intro h
        cases h
        cases hname
  | none =>
      rw [markCaptures_of_none hname, markSlots_eq_map]
      simp [list, Tree.line, Tree.label, Tree.slots]

end Tree

namespace SnippetReader

variable {r : SnippetReader} {source : String} {t : Tree}

/-- A pattern is rejected as empty if the statement inside the program is a list without items. -/
theorem pattern_of_program (h : r.program source = .ok t) :
    (r.pattern source = .error .emptyPattern ∧ ∃ kind line, t.unwrapSingle = .list kind [] line) ∨
      ((∃ p, r.pattern source = .ok p) ∧ ∀ kind line, t.unwrapSingle ≠ .list kind [] line) := by
  cases hslots : t.slots.isEmpty with
  | true =>
      have hempty : r.pattern source = .error .emptyPattern := by
        simp only [pattern, snippet, h, hslots, if_true]
        rfl
      cases program_isPart h with
      | @block items line _ =>
          obtain rfl : items = [] := by simpa [Tree.list, Tree.slots] using hslots
          exact .inl ⟨hempty, .stmtList, line, rfl⟩
  | false =>
      obtain ⟨s, hs⟩ : ∃ s, r.snippet source = .ok s := by
        simp [snippet, h, hslots]
      obtain ⟨u, hu, -, htree, -⟩ := exists_program hs
      cases h.symm.trans hu
      have hlist (kind : ListKind) (line : Nat) :
          s.tree = .list kind [] line ↔ t.unwrapSingle = .list kind [] line := by
        rw [htree, Tree.markCaptures_eq_list_iff]
      rw [pattern, hs, ok_bind]
      split
      · rename_i line kind hempty
        exact .inl ⟨rfl, kind, line, (hlist kind line).mp hempty⟩
      · rename_i hne
        exact .inr ⟨⟨_, rfl⟩, fun kind line hempty => hne line kind ((hlist kind line).mpr hempty)⟩

/-- Of the snippets that can be read, those without a statement and those that are an array without
elements are rejected as patterns, as empty ones, and all others are accepted. -/
theorem pattern_emptyPattern_iff (h : r.ReadsAs source t) :
    (r.pattern source = .error .emptyPattern ↔ ∃ kind line, (kind = .stmtList ∨ kind = .array) ∧
      Relation.ReflTransGen Tree.Encloses t (.list kind [] line)) ∧
    (r.pattern source ≠ .error .emptyPattern → ∃ p, r.pattern source = .ok p) := by
  have hprogram := program_iff_readsAs.mpr h
  obtain ⟨hreaches, -⟩ := t.unwrapSingle_spec
  rcases pattern_of_program hprogram with ⟨hempty, kind, line, hlist⟩ | ⟨⟨p, hp⟩, hne⟩
  · rw [hlist] at hreaches
    have hpart := (Tree.IsPart.ofBlock (program_isPart hprogram)).statement_of_reaches hreaches
    have hkind := hpart.listKind_of_statement rfl
    exact ⟨iff_of_true hempty ⟨kind, line, hkind, hreaches⟩, absurd hempty⟩
  · refine ⟨iff_of_false (by rw [hp]; exact nofun) ?_, fun _ => ⟨p, hp⟩⟩
    rintro ⟨kind, line, -, hlist⟩
    refine hne kind line ?_
    rw [Tree.unwrapSingle_of_reaches hlist, Tree.unwrapSingle_empty]

/-- A block around an empty block is empty. -/
theorem pattern_nestedBlock :
    ∃ t, (ofSigil defaultSigil).ReadsAs "\x7b \x7b\x7d \x7d" t ∧
      (ofSigil defaultSigil).pattern "\x7b \x7b\x7d \x7d" = .error .emptyPattern := by
  have hread : readProgram defaultSigil "\x7b \x7b\x7d \x7d".toList =
      .ok (.list .stmtList [.list .stmtList [.list .stmtList [] 1] 1] 1) :=
    readProgram_of_toOption (by decide +kernel)
  obtain ⟨hempty, -⟩ := pattern_emptyPattern_iff (r := ofSigil defaultSigil) (.inl hread)
  exact ⟨_, .inl hread, hempty.mpr ⟨.stmtList, 1, .inl rfl, (Tree.unwrapSingle_spec _).1⟩⟩

/-- An array without elements is a statement, yet it is rejected as a snippet without one. -/
theorem pattern_emptyArray :
    ∃ t, (ofSigil defaultSigil).ReadsAs "[];" t ∧ t.children = [.list .array [] 1] ∧
      (ofSigil defaultSigil).pattern "[];" = .error .emptyPattern ∧
      ∀ line, ¬ Relation.ReflTransGen Tree.Encloses t (.list .stmtList [] line) := by
  have hread : readProgram defaultSigil "[];".toList =
      .ok (.list .stmtList [.list .array [] 1] 1) := readProgram_of_toOption (by decide +kernel)
  have hprogram := program_iff_readsAs (r := ofSigil defaultSigil).mpr (.inl hread)
  refine ⟨_, .inl hread, rfl, ?_, fun line hreaches => ?_⟩
  · rcases pattern_of_program hprogram with ⟨hempty, -⟩ | ⟨-, hne⟩
    · exact hempty
    · exact absurd rfl (hne .array 1)
  · cases (Tree.unwrapSingle_of_reaches hreaches).trans (Tree.unwrapSingle_empty .stmtList line)

end SnippetReader

end SnippetRewrite
