import SnippetRewrite.Proofs.Rule.FreshInstance

/-!
Instances that are refused. A template is built from left to right, children before their parent, and
nothing takes back what has been built when an unbound capture is met: the parts of the template
that were complete by then stay in the arena, without a parent. Main statement: a refused instance
changes no node and leaves exactly these parts behind.
-/

namespace SnippetRewrite

open Placement

namespace Tree

mutual

/-- The parts of a template that come before its first unbound capture point, the largest that do not
contain it. -/
def complete (bound : String → Bool) : Tree → List Tree
  | .node _ _ slots => completeIn bound slots

def completeIn (bound : String → Bool) : List (Option Tree) → List Tree
  | [] => []
  | none :: rest => completeIn bound rest
  | some t :: rest =>
    if t.captureOccurrences.all bound then t :: completeIn bound rest else complete bound t

end

end Tree

namespace Arena

/-- The second arena is the first with some more trees, whose roots have no parents. -/
structure Litters (a : Arena) (roots : List NodeId) (ts : List Tree) (b : Arena) : Prop where
  trees : List.Forall₂ (fun id t => b.tree id = .ok t) roots ts
  /-- All nodes from before are as they were, in the same slots. -/
  kept : a.Grown b
  fresh : ∀ id ∈ roots, ∀ path x, b.follow id path = some x → ¬ a.contains x
  /-- There are no other new nodes. -/
  only : ∀ x, b.contains x → a.contains x ∨ ∃ id ∈ roots, ∃ path, b.follow id path = some x
  free : b.FreeExact
  liveCount_eq : b.liveCount = a.liveCount + Tree.sizeIn (ts.map some)

theorem contains_of_tree {a : Arena} {id : NodeId} {t : Tree} (h : a.tree id = .ok t) :
    a.contains id := by
  rw [Arena.tree, depthBound, treeWithin] at h
  obtain ⟨c, hc, -⟩ := bind_eq_ok.mp h
  rw [Arena.cell] at hc
  split at hc
  · exact contains_iff.mpr ⟨_, ‹_›⟩
  · cases hc

/-- Nothing has changed exactly if there are no more trees. -/
theorem Litters.unchanged_iff {a b : Arena} {roots : List NodeId} {ts : List Tree}
    (h : a.Litters roots ts b) : (∀ x, b.cell? x = a.cell? x) ↔ ts = [] := by
  constructor
  · intro hsame
    cases h.trees with
    | nil => rfl
    | @cons id t roots ts hid _ =>
        have hnew := h.fresh id List.mem_cons_self [] id rfl
        rw [Arena.contains, ← hsame id] at hnew
        exact (hnew (contains_of_tree hid)).elim
  · rintro rfl x
    cases h.trees
    by_cases hold : a.contains x
    · exact h.kept.cell x hold
    · have hnew : ¬ b.contains x := by
        intro hx
        rcases h.only x hx with hx | ⟨id, hid, -⟩
        · exact hold hx
        · cases hid
      rw [Arena.contains, Bool.not_eq_true, Option.isSome_eq_false_iff, Option.isNone_iff_eq_none]
        at hold hnew
      rw [hold, hnew]

end Arena

namespace Edit

variable {α β : Type} {a b : Arena} {es : List Entry} {v : ShapeViolation} {t : Tree}
  {ts : List Tree}

/-- The edit is refused after it has stored some trees beside the entries `es`. -/
def Refuses (x : Edit α) (a : Arena) (es : List Entry) (v : ShapeViolation) (ts : List Tree) :
    Prop :=
  ∃ (ls : List Placement) (b : Arena), x a = .error (.shape v) b ∧ ls.map tree = ts ∧
    b.Owns (ls.flatMap entries ++ es) ∧ a.Grown b

theorem Refuses.refuse (h : a.Owns es) (v : ShapeViolation) : (refuse v : Edit α).Refuses a es v [] :=
  ⟨[], a, rfl, rfl, h, .refl a⟩

/-- What comes after a refusal is not run. -/
theorem Refuses.bind {x : Edit α} (h : x.Refuses a es v ts) (f : α → Edit β) :
    (x >>= f).Refuses a es v ts := by
  obtain ⟨ls, b, hx, htrees, howns, hgrown⟩ := h
  exact ⟨ls, b, bind_error hx, htrees, howns, hgrown⟩

/-- A tree that was stored before the refusal stays. -/
theorem Adds.refuses {x : Edit NodeId} {f : NodeId → Edit β} (hx : x.Adds a es t)
    (hf : ∀ id b fs, b.Owns (fs ++ es) → a.Grown b → (f id).Refuses b (fs ++ es) v ts) :
    (x >>= f).Refuses a es v (t :: ts) := by
  obtain ⟨l, b, hl, rfl, hb, hgrown⟩ := hx
  obtain ⟨ls, c, hc, rfl, howns, hgrown'⟩ := hf l.root b l.entries hb hgrown
  refine ⟨l :: ls, c, by rw [bind_ok hl, hc], rfl, howns.perm ?_, hgrown.trans hgrown'⟩
  rw [List.flatMap_cons, List.append_assoc]
  exact List.perm_append_comm_assoc _ _ _

theorem length_flatMap_entries (ls : List Placement) :
    (ls.flatMap entries).length = Tree.sizeIn ((ls.map tree).map some) := by
  induction ls with
  | nil => rfl
  | cons l ls ih => simp [ih, Placement.size_tree]

/-- An edit that is refused leaves the arena with the trees stored before and changes nothing else. -/
theorem Refuses.litters {x : Edit α} (h : x.Refuses a es v ts) (ha : a.Owns es) :
    ∃ roots b, x a = .error (.shape v) b ∧ a.Litters roots ts b := by
  obtain ⟨ls, b, hx, rfl, hb, hgrown⟩ := h
  have hls : ∀ l ∈ ls, b.Holds l := fun l hl e he =>
    hb.stores e (List.mem_append_left _ (List.mem_flatMap.mpr ⟨l, hl, he⟩))
  have hnodup := hb.nodup
  rw [List.map_append, List.nodup_append] at hnodup
  have hmem {l : Placement} (hl : l ∈ ls) {x : NodeId} (hx : x ∈ l.ids) :
      x ∈ (ls.flatMap entries).map Entry.id := by
    obtain ⟨e, he, rfl⟩ := List.mem_map.mp hx
    exact List.mem_map_of_mem (List.mem_flatMap.mpr ⟨l, hl, he⟩)
  refine ⟨ls.map root, b, hx, ?_, hgrown, fun id hid path y hpath hold => ?_, fun y hy => ?_, hb.free,
    ?_⟩
  · rw [List.forall₂_map_left_iff, List.forall₂_map_right_iff, List.forall₂_same]
    exact fun l hl => (hls l hl).tree_eq
  · obtain ⟨l, hl, rfl⟩ := List.mem_map.mp hid
    exact hnodup.2.2 y (hmem hl (Arena.mem_ids_of_follow (hls l hl) hpath)) y (ha.covers y hold) rfl
  · have hcovers := hb.covers y hy
    rw [List.map_append, List.mem_append, ← ha.contains_iff_mem] at hcovers
    refine hcovers.symm.imp_right fun hnew => ?_
    obtain ⟨e, he, rfl⟩ := List.mem_map.mp hnew
    obtain ⟨l, hl, hel⟩ := List.mem_flatMap.mp he
    exact ⟨l.root, List.mem_map_of_mem hl,
      Arena.exists_follow (hls l hl) (List.mem_map_of_mem hel)⟩
  · rw [hb.liveCount_eq, ha.liveCount_eq, List.length_append, length_flatMap_entries, Nat.add_comm]

end Edit

namespace Template

variable {r : SnippetReader} {source : String} {t : Template} {a : Arena} {b : Bindings}
  {f : Assignment} {name : String}

/-- The first capture point, from left to right, that has no binding. -/
def firstUnbound (b : Bindings) (names : List String) : Option String :=
  names.find? fun name => (b.get? name).isNone

theorem firstUnbound_append {xs ys : List String} :
    firstUnbound b (xs ++ ys) = (firstUnbound b xs).or (firstUnbound b ys) :=
  List.find?_append

theorem firstUnbound_eq_none {names : List String} :
    firstUnbound b names = none ↔ names.all (fun name => (b.get? name).isSome) = true := by
  simp [firstUnbound, List.find?_eq_none, Option.isSome_iff_ne_none]

mutual

/-- Building a part that has an unbound capture stores what is complete before it. -/
theorem build_refuses (line : Nat) : (u : Tree) → (a : Arena) → (es : List Entry) → a.Owns es →
    u.hasShape = true →
    (∀ name ∈ u.captureOccurrences, ∀ id, b.get? name = some id → a.HasTree id (f name)) →
    firstUnbound b u.captureOccurrences = some name →
    (build b line u).Refuses a es (.unboundCapture name)
      ((u.complete fun name => (b.get? name).isSome).map fun part => (part.atLine line).subst f)
  | .node line' label slots, a, es, ha, hshape, hbound, hname => by
    obtain ⟨hslots, harity⟩ := Tree.hasShape_node.mp hshape
    rcases label.capture_or with ⟨capture, rfl⟩ | hcapture
    · cases List.length_eq_zero_iff.mp (harity 0 rfl)
      have hnone : b.get? capture = none ∧ capture = name := by
        simpa [firstUnbound, Tree.captureOccurrences, List.find?_cons_eq_some] using hname
      obtain ⟨hnone, rfl⟩ := hnone
      simp only [build, hnone]
      exact .refuse ha _
    · rw [Tree.captureOccurrences_node line' hcapture] at hbound hname
      by_cases hleaf : ∃ kind value, label = .leaf kind value
      · obtain ⟨kind, value, rfl⟩ := hleaf
        cases List.length_eq_zero_iff.mp (harity 0 rfl)
        cases hname
      · have hleaf' : ∀ kind value, label ≠ .leaf kind value :=
          fun kind value heq => hleaf ⟨kind, value, heq⟩
        rw [build_node b line line' hleaf' hcapture]
        exact (buildSlots_refuses line slots a es ha hslots hbound hname).bind _

theorem buildSlots_refuses (line : Nat) : (slots : List (Option Tree)) → (a : Arena) →
    (es : List Entry) → a.Owns es → (∀ t, some t ∈ slots → t.hasShape = true) →
    (∀ name ∈ Tree.captureOccurrencesIn slots, ∀ id, b.get? name = some id → a.HasTree id (f name)) →
    firstUnbound b (Tree.captureOccurrencesIn slots) = some name →
    (buildSlots b line slots).Refuses a es (.unboundCapture name)
      ((Tree.completeIn (fun name => (b.get? name).isSome) slots).map
        fun part => (part.atLine line).subst f)
  | [], _, _, _, _, _, hname => by cases hname
  | none :: rest, a, es, ha, hshape, hbound, hname =>
    (buildSlots_refuses line rest a es ha (fun t ht => hshape t (List.mem_cons_of_mem _ ht)) hbound
      hname).bind _
  | some u :: rest, a, es, ha, hshape, hbound, hname => by
    rw [Tree.captureOccurrencesIn] at hbound hname
    rw [firstUnbound_append] at hname
    have hfirst := fun name hname => hbound name (List.mem_append_left _ hname)
    have hushape := hshape u List.mem_cons_self
    cases hu : firstUnbound b u.captureOccurrences with
    | some capture =>
        rw [hu, Option.some_or] at hname
        cases hname
        have hnot : ¬ u.captureOccurrences.all (fun name => (b.get? name).isSome) = true := by
          rw [← firstUnbound_eq_none, hu]
          exact Option.some_ne_none _
        rw [buildSlots, Tree.completeIn, if_neg hnot]
        exact (build_refuses line u a es ha hushape hfirst hu).bind _
    | none =>
        rw [hu, Option.none_or] at hname
        have hall := firstUnbound_eq_none.mp hu
        rw [buildSlots, Tree.completeIn, if_pos hall, List.map_cons]
        have hadds := build_adds (b := b) line hushape ha fun capture hcapture => by
          obtain ⟨id, hid⟩ := Option.isSome_iff_exists.mp (List.all_eq_true.mp hall capture hcapture)
          exact ⟨id, hid, hfirst capture hcapture id hid⟩
        refine hadds.refuses fun id c fs hc hgrown => (buildSlots_refuses line rest c (fs ++ es) hc
          (fun t ht => hshape t (List.mem_cons_of_mem _ ht)) ?_ hname).bind _
        intro capture hcapture id hid
        exact (hbound capture (List.mem_append_right _ hcapture) id hid).grown hgrown

end

/-- An instance of a compiled template fails only by an unbound capture, the first from left to
right, if the bound captures unfold to trees. The failure changes no node of the arena. It leaves new
nodes behind: those of the parts of the template that were complete before, and no others. -/
theorem instantiate_litters (line : Nat) (ht : r.template source = .ok t) (hfree : a.FreeExact)
    (hfits : a.Fits) (hbound : ∀ name ∈ t.captures, ∀ id, b.get? name = some id → a.Unfolds id)
    {e : ArenaError} {c : Arena} (h : t.instantiate b line a = .error e c) :
    ∃ f : Assignment,
      (∀ name ∈ t.captures, ∀ id, b.get? name = some id → a.tree id = .ok (f name)) ∧
      (∃ name, firstUnbound b t.tree.captureOccurrences = some name ∧
        e = .shape (.unboundCapture name)) ∧
      (∃ roots, a.Litters roots ((t.tree.complete fun name => (b.get? name).isSome).map
        fun part => (part.atLine line).subst f) c) ∧
      ((∀ x, c.cell? x = a.cell? x) ↔ t.tree.complete (fun name => (b.get? name).isSome) = []) := by
  obtain ⟨hshape, hcaptures⟩ := compiles ht
  obtain ⟨f, hf⟩ := exists_trees hfits t.captures hbound
  have howns := Arena.owns_nodeEntries hfree hfits
  refine ⟨f, fun name hname id hid => (hf name hname id hid).tree_eq, ?_⟩
  cases hname : firstUnbound b t.tree.captureOccurrences with
  | none =>
      have hall := List.all_eq_true.mp (firstUnbound_eq_none.mp hname)
      have hadds := build_adds (b := b) line hshape howns fun name hname => by
        obtain ⟨id, hid⟩ := Option.isSome_iff_exists.mp (hall name hname)
        exact ⟨id, hid, hf name (hcaptures hname) id hid⟩
      obtain ⟨l, d, hd, -⟩ := hadds
      cases h.symm.trans hd
  | some name =>
      obtain ⟨roots, d, hd, hlitters⟩ := (build_refuses line t.tree a _ howns hshape
        (fun name hname => hf name (hcaptures hname)) hname).litters howns
      cases h.symm.trans hd
      exact ⟨⟨name, rfl, rfl⟩, ⟨roots, hlitters⟩, by rw [hlitters.unchanged_iff, List.map_eq_nil_iff]⟩

/-- In the sum of a bound and an unbound capture, the bound one is complete before the refusal, and its
copy takes the slots 3 to 5. -/
theorem exists_refused_sum :
    ∃ t c, (SnippetReader.ofSigil defaultSigil).template "$x + $y" = .ok t ∧ t.captures = ["x", "y"] ∧
      t.tree.complete (fun name => (Bindings.get? [("x", 2)] name).isSome) =
        [.node 1 (.capture "x") []] ∧
      t.instantiate [("x", 2)] 7 callUnit = .error (.shape (.unboundCapture "y")) c ∧
      c.contains 5 := by
  have hcompiles : ((SnippetReader.ofSigil defaultSigil).template "$x + $y").toOption.map (fun t =>
      (t.captures, t.tree.complete fun name => (Bindings.get? [("x", 2)] name).isSome,
        match t.instantiate [("x", 2)] 7 callUnit with
        | .ok _ _ => none
        | .error e c => some (e, c.contains 5))) =
      some (["x", "y"], [.node 1 (.capture "x") []],
        some (.shape (.unboundCapture "y"), true)) := by
    decide +kernel
  cases ht : (SnippetReader.ofSigil defaultSigil).template "$x + $y" with
  | error e =>
      rw [ht] at hcompiles
      cases hcompiles
  | ok t =>
      rw [ht] at hcompiles
      simp only [Except.toOption, Option.map_some, Option.some.injEq, Prod.mk.injEq] at hcompiles
      obtain ⟨hcaptures, hcomplete, hrun⟩ := hcompiles
      split at hrun
      · cases hrun
      · rename_i e c hc
        obtain ⟨rfl, hlive⟩ := Prod.mk.inj (Option.some.inj hrun)
        exact ⟨t, c, rfl, hcaptures, hcomplete, hc, hlive⟩

/-- The capture `y` has no binding, and it comes behind the complete operand `x`. -/
theorem instantiate_litters_sum :
    ∃ t roots c, (SnippetReader.ofSigil defaultSigil).template "$x + $y" = .ok t ∧
      t.instantiate [("x", 2)] 7 callUnit = .error (.shape (.unboundCapture "y")) c ∧
      callUnit.Litters roots [Matcher.callTree] c := by
  obtain ⟨hunit, htree⟩ := callUnit_treeShaped
  obtain ⟨t, c, ht, hcaptures, hcomplete, hc, -⟩ := exists_refused_sum
  obtain ⟨f, hf, -, ⟨roots, hlitters⟩, -⟩ := instantiate_litters 7 ht hunit.free hunit.fits
    (fun name _ id hid => callUnit_unfolds hid) hc
  have hx : f "x" = Matcher.callTree :=
    Except.ok.inj ((hf "x" (by simp [hcaptures]) 2 (by decide)).symm.trans htree)
  refine ⟨t, roots, c, ht, hc, ?_⟩
  simpa [hcomplete, Tree.atLine_node, Tree.subst, hx] using hlitters

/-- A refused instance may leave nodes behind: the copy of the bound call stays in the arena. -/
theorem instantiate_leaves_copy :
    ∃ (t : Template) (a c : Arena) (b : Bindings) (e : ArenaError),
      (SnippetReader.ofSigil defaultSigil).template "$x + $y" = .ok t ∧ a.FreeExact ∧ a.Fits ∧
      (∀ name id, b.get? name = some id → a.Unfolds id) ∧ t.instantiate b 7 a = .error e c ∧
      ∃ x, c.contains x ∧ ¬ a.contains x := by
  obtain ⟨hunit, -⟩ := callUnit_treeShaped
  obtain ⟨t, c, ht, -, -, hc, hlive⟩ := exists_refused_sum
  exact ⟨t, callUnit, c, [("x", 2)], _, ht, hunit.free, hunit.fits,
    fun name id hid => callUnit_unfolds hid, hc, 5, hlive, by decide +kernel⟩

end Template

end SnippetRewrite
