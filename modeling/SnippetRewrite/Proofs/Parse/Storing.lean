import SnippetRewrite.Parse.Unit
import SnippetRewrite.Proofs.Arena.Editing
import SnippetRewrite.Proofs.Arena.Owing
import SnippetRewrite.Proofs.Parse.PairedGrammar

/-!
Reading a program into an arena. The grammar stores each node as soon as its children are stored. This
is followed beside the grammar of trees, part by part: at each time the arena is what storing the trees
read so far makes of an empty one, each node in it is owed to a parent or held by one, and reading
fails where the grammar of trees does.
-/

namespace SnippetRewrite

/-- Child slots in the order in which the children are made: the return type of a function comes
before its body. -/
def Label.inOrder {α : Type} : Label → List α → List α
  | .decl _ _ _, slots => swapLast slots
  | _, slots => slots

namespace Arena

variable {a b d : Arena} {s : Owed NodeId} {slots : List (Option (Tree × NodeId))}

/-- Storing trees one after another makes one arena of another, with their roots in given slots. -/
inductive Planted : Arena → Owed NodeId → Arena → Prop
  | nil (a : Arena) : Planted a [] a
  | cons {a b d : Arena} {t : Tree} {n : NodeId} {s : Owed NodeId} (h : Edit.plant t a = .ok n b)
      (hs : Planted b s d) : Planted a ((t, n) :: s) d

theorem planted_append {s' : Owed NodeId} :
    Planted a (s ++ s') d ↔ ∃ b, Planted a s b ∧ Planted b s' d := by
  constructor
  · intro h
    induction s generalizing a with
    | nil => exact ⟨a, .nil a, h⟩
    | cons p s ih =>
        cases h with
        | cons hp hs =>
            obtain ⟨b, hb, hd⟩ := ih hs
            exact ⟨b, .cons hp hb, hd⟩
  · rintro ⟨b, hb, hd⟩
    induction hb with
    | nil => exact hd
    | cons hp _ ih => exact .cons hp (ih hd)

/-- Trees stored one after another are stored as the children of a node. -/
theorem mapM_of_planted (slots : List (Option (Tree × NodeId)))
    (h : Planted a (slots.flatMap Option.toList) b) :
    ((slots.map (Option.map Prod.fst)).map (Option.map Edit.plant)).mapM (Option.mapM id) a =
      .ok (slots.map (Option.map Prod.snd)) b := by
  induction slots generalizing a with
  | nil =>
      cases h
      rfl
  | cons o slots ih =>
      cases o with
      | none =>
          have hrest := ih h
          simp only [List.map_cons, Option.map_none, List.mapM_cons]
          exact Edit.bind_ok hrest
      | some p =>
          cases h with
          | cons hp hs =>
              have hfirst : Option.mapM id (some (Edit.plant _)) a = .ok (some _) _ := Edit.bind_ok hp
              simp only [List.map_cons, Option.map_some, List.mapM_cons]
              rw [Edit.bind_ok hfirst, Edit.bind_ok (ih hs)]
              rfl

theorem plant_of_planted {line : Nat} {label : Label}
    (h : Planted a ((label.inOrder slots).flatMap Option.toList) b) :
    Edit.plant (.node line label (slots.map (Option.map Prod.fst))) a =
      Edit.alloc (Cell.ofSlots line label (slots.map (Option.map Prod.snd))) b := by
  rw [Edit.plant, Tree.fold_node]
  refine Edit.bind_ok ?_
  cases label with
  | decl kind name flags =>
      rcases slots with _ | ⟨i, _ | ⟨j, _ | ⟨k, _ | ⟨m, _ | ⟨n, rest⟩⟩⟩⟩⟩
      case cons.cons.cons.cons.nil =>
        have hwalk := mapM_of_planted [i, j, m, k] h
        have horder : (Label.decl kind name flags).inSourceOrder (m := EStateM ArenaError Arena) id
            ([i, j, k, m].map (Option.map Prod.fst) |>.map (Option.map Edit.plant)) =
            (do
              let ids ← ([i, j, m, k].map (Option.map Prod.fst) |>.map (Option.map Edit.plant)).mapM
                (Option.mapM id)
              pure (swapLast ids)) := by
          simp [Label.inSourceOrder, List.mapM_cons, swapLast]
        exact horder ▸ Edit.bind_ok hwalk
      all_goals exact mapM_of_planted _ h
  | leaf | fixed | list | capture => exact mapM_of_planted _ h

/-- The arena is what storing the owed trees makes of an empty one, each in its slot. -/
structure Storing (origin : String) (s : Owed NodeId) (a : Arena) : Prop where
  planted : Planted (empty origin) s a
  owing : a.Owing (s.map Prod.snd)
  line_eq : ∀ p ∈ s, a.line p.2 = .ok p.1.line

theorem empty_storing (origin : String) : Storing origin [] (empty origin) :=
  ⟨.nil _, empty_owing origin, by simp⟩

theorem filterMap_ofSlots (line : Nat) (label : Label) (ids : List (Option NodeId)) :
    (Cell.ofSlots line label ids).slots.filterMap id = ids.filterMap id := by
  cases label <;> simp [Cell.ofSlots]

theorem slots_perm_inOrder (label : Label) :
    ((slots.map (Option.map Prod.snd)).filterMap id).Perm
      (((label.inOrder slots).flatMap Option.toList).map Prod.snd) := by
  have horder : (label.inOrder slots).Perm slots := by
    cases label with
    | decl => exact swapLast_perm slots
    | leaf | fixed | list | capture => exact .refl _
  have hflat (xs : List (Option (Tree × NodeId))) :
      (xs.flatMap Option.toList).map Prod.snd = (xs.map (Option.map Prod.snd)).filterMap id := by
    induction xs with
    | nil => rfl
    | cons o xs ih => cases o <;> simp [ih]
  rw [hflat]
  exact ((horder.map _).filterMap _).symm

/-- A node of nodes that are owed is stored and owed in their place. -/
theorem Storing.node {origin : String} (label : Label) (slots : List (Option (Tree × NodeId)))
    (line : Nat) (h : Storing origin (s ++ (label.inOrder slots).flatMap Option.toList) a) :
    ∃ n b, Edit.alloc (Cell.ofSlots line label (slots.map (Option.map Prod.snd))) a = .ok n b ∧
      Storing origin (s ++ [(.node line label (slots.map (Option.map Prod.fst)), n)]) b := by
  obtain ⟨b, hb, hkids⟩ := planted_append.mp h.planted
  have halloc : Edit.alloc (Cell.ofSlots line label (slots.map (Option.map Prod.snd))) a =
      .ok a.cells.size { a with
        cells := a.cells.push (some (Cell.ofSlots line label (slots.map (Option.map Prod.snd)))) } := by
    simp only [Edit.alloc, h.owing.free_nil]
  have howing := h.owing
  rw [List.map_append] at howing
  refine ⟨_, _, halloc, planted_append.mpr ⟨b, hb, .cons ((plant_of_planted hkids).trans halloc)
    (.nil _)⟩, ?_, fun p hp => ?_⟩
  · rw [List.map_append]
    refine howing.push ?_
    rw [filterMap_ofSlots]
    exact slots_perm_inOrder label
  · rw [Arena.line, cell, cell?_push]
    rcases List.mem_append.mp hp with hp | hp
    · have hlt : p.2 < a.cells.size := h.owing.lt_size p.2 (by simp [List.mem_map_of_mem hp])
      rw [if_neg (Nat.ne_of_lt hlt)]
      exact h.line_eq p (List.mem_append_left _ hp)
    · rw [List.mem_singleton.mp hp, if_pos rfl]
      cases label <;> rfl

theorem Storing.leaf {origin : String} (h : Storing origin s a) (kind : LeafKind) (value : Value)
    (line : Nat) : ∃ n b, Edit.leaf kind value line a = .ok n b ∧
      Storing origin (s ++ [(.node line (.leaf kind value) [], n)]) b :=
  Storing.node (.leaf kind value) [] line (by simpa [Label.inOrder] using h)

theorem Storing.list {origin : String} {items : Owed NodeId} (h : Storing origin (s ++ items) a)
    (kind : ListKind) (line : Nat) :
    ∃ n b, Edit.list kind (items.map Prod.snd) line a = .ok n b ∧
      Storing origin (s ++ [(.list kind (items.map Prod.fst) line, n)]) b := by
  have hslots : (items.map some).flatMap Option.toList = items := by simp [List.flatMap_map]
  obtain ⟨n, b, halloc, hb⟩ := Storing.node (.list kind) (items.map some) line
    (hslots.symm ▸ h)
  simp only [List.map_map, Function.comp_def, Option.map_some] at halloc hb
  refine ⟨n, b, ?_, ?_⟩
  · rw [Edit.list, List.map_map]
    exact halloc
  · rw [Tree.list, List.map_map]
    exact hb

end Arena

/-- Trees beside the nodes that are stored for them in the arena of a unit. -/
def storing (origin : String) : Pairing Building NodeId where
  State := Arena
  run x a := match x a with
    | .ok v b => .ok (v, b)
    | .error e _ => .error e
  Inv s _ a := a.Storing origin s
  Word _ := True
  row _ := 0
  failures := True
  limit := 0

theorem of_run_ok {α : Type} {origin : String} {x : Building α} {a b : Arena} {v : α}
    (h : (storing origin).run x a = .ok (v, b)) : x a = .ok v b := by
  cases hx : x a <;> simp only [storing, hx, reduceCtorEq] at h
  cases h
  rfl

theorem of_run_error {α : Type} {origin : String} {x : Building α} {a : Arena}
    {failure : SyntaxFailure} (h : (storing origin).run x a = .error failure) :
    ∃ b, x a = .error failure b := by
  cases hx : x a <;> simp only [storing, hx, reduceCtorEq] at h
  cases h
  exact ⟨_, rfl⟩

theorem run_edit {α : Type} {origin : String} {x : Edit α} {a b : Arena} {v : α} (h : x a = .ok v b)
    (c : Cursor) : (storing origin).run (Building.edit x c) a = .ok ((v, c), b) := by
  simp only [storing, Building.edit, h]

/-- A node is stored with the right number of children. -/
theorem shaped_ok {label : Label} {arity line : Nat} {slots : List (Option NodeId)} {a b : Arena}
    {n : NodeId} (harity : slots.length = arity)
    (h : Edit.alloc (Cell.ofSlots line label slots) a = .ok n b) :
    Edit.shaped label arity slots line a = .ok n b := by
  rw [Edit.shaped, if_pos harity]
  exact h

instance (origin : String) : (storing origin).Lawful where
  run_pure _ _ := rfl
  run_bind x f a := by
    cases hx : x a <;> simp only [storing, bind, EStateM.bind, hx] <;> rfl
  run_throw _ _ := rfl
  row_mono _ := Nat.le_refl _
  row_le_of_mem _ _ := Nat.le_refl _
  moves h _ := h
  mark h := h
  name {s c a text line} h _ _ := by
    obtain ⟨n, b, halloc, hb⟩ := h.leaf .name (.str text) line
    exact ⟨n, b, run_edit halloc c, hb⟩
  var {s c a text line} h _ _ := by
    -- the name is owed to the node around it for one step
    obtain ⟨n, b, hname, hb⟩ := h.leaf .name (.str text) line
    obtain ⟨n', d, halloc, hd⟩ := Arena.Storing.node (.fixed .var)
      [some (.name text line, n)] line hb
    have hvar : Edit.var text line a = .ok n' d := (Edit.bind_ok hname).trans halloc
    exact ⟨n', d, run_edit hvar c, hd⟩
  literal {s c a line} value h _ := by
    obtain ⟨n, b, halloc, hb⟩ := h.leaf .literal value line
    exact ⟨n, b, run_edit halloc c, hb⟩
  fixed {s c a kind line slots} h harity _ _ := by
    obtain ⟨n, b, halloc, hb⟩ := Arena.Storing.node (.fixed kind) slots line h
    exact ⟨n, b, run_edit (shaped_ok (by simpa using harity) halloc) c, hb⟩
  decl {s c a kind line slots} name flags h harity _ _ := by
    obtain ⟨n, b, halloc, hb⟩ := Arena.Storing.node (.decl kind name flags) slots line h
    exact ⟨n, b, run_edit (shaped_ok (by simpa using harity) halloc) c, hb⟩
  list {s items c a line} kind h _ _ := by
    obtain ⟨n, b, hlist, hb⟩ := h.list kind line
    exact ⟨n, b, run_edit hlist c, hb⟩
  lineOf {s c a t w} h hw := by
    have hline : Edit.ofRead (fun a => a.line w) a = .ok t.line a := by
      simp only [Edit.ofRead, h.line_eq _ hw]
    exact run_edit hline c

/-- Reading a program into an arena fails where the grammar of trees does, and otherwise leaves what
storing the tree makes of an empty arena, with the root owed. -/
theorem exists_storing (sigil : Char) (source origin : String) :
    (∃ t n a, readProgram sigil source.toList = .ok t ∧ Edit.plant t (.empty origin) = .ok n a ∧
        a.Owing [n] ∧ parseUnit sigil source origin = .ok { a with root := some n }) ∨
      ∃ failure, readProgram sigil source.toList = .error failure ∧ failure.cause ≠ .nesting ∧
        parseUnit sigil source origin = .error (failure.report origin) := by
  have hwords : Grammar.SameWords (storing origin) sigil sigil (source.toList.length + 1) :=
    .same fun _ => trivial
  have hrel := Grammar.ofLength_program_paired (s := []) (c := Cursor.start source.toList) hwords
    (Nat.le_refl _) (Nat.le_refl _) (.empty origin) (Arena.empty_storing origin)
  cases hread : (Grammar.ofLength sigil source.toList.length : TreeGrammar).program
      (Cursor.start source.toList) with
  | ok r =>
      obtain ⟨t, d⟩ := r
      obtain ⟨-, n, s, a, hrun, hstoring, rfl, -⟩ := hrel.1 t d hread
      refine .inl ⟨t, n, a, by rw [readProgram, hread]; rfl, ?_, hstoring.owing, ?_⟩
      · cases hstoring.planted with
        | cons hplant hnil =>
            cases hnil
            exact hplant
      · have hbuilt : (Grammar.ofLength sigil source.toList.length : Grammar Building NodeId).program
            (Cursor.start source.toList) (.empty origin) = .ok (n, d) a := of_run_ok hrun
        simp only [parseUnit, hbuilt]
  | error failure =>
      obtain ⟨-, hlimit, hfails⟩ := hrel.2 failure hread
      have hcause : failure.cause ≠ .nesting := fun h => Nat.not_lt_zero _ (hlimit h)
      refine .inr ⟨failure, by rw [readProgram, hread]; rfl, hcause, ?_⟩
      obtain ⟨a, hrun⟩ := of_run_error (hfails hcause trivial)
      have hbuilt : (Grammar.ofLength sigil source.toList.length : Grammar Building NodeId).program
          (Cursor.start source.toList) (.empty origin) = .error failure a := hrun
      simp only [parseUnit, hbuilt]

/-- The same in one equation. -/
theorem parseUnit_eq (sigil : Char) (source origin : String) :
    parseUnit sigil source origin = match readProgram sigil source.toList with
      | .ok t => .ok (Arena.ofTree origin t)
      | .error f => .error (f.report origin) := by
  rcases exists_storing sigil source origin with
    ⟨t, n, a, hread, hplant, -, hparse⟩ | ⟨failure, hread, -, hparse⟩
  · have hunit : (do Edit.setRoot (← Edit.plant t)) (Arena.empty origin) =
        .ok () { a with root := some n } := Edit.bind_ok hplant
    simp only [hread, hparse, Arena.ofTree, hunit]
  · rw [hread, hparse]

end SnippetRewrite
