import SnippetRewrite.Proofs.Arena.Unfolding
import SnippetRewrite.Proofs.Rule.Compiled

/-!
Instances of templates in an arena. Of the bindings only those of the template's captures are looked
at, and the copies of the bound subtrees keep their lines. Main statement: in any arena with an exact
free list, the instance is a new tree in fresh slots, and it comes from substitution, whatever the
bound subtrees share with each other and however often a capture is used.
-/

namespace SnippetRewrite

open Placement

/-! ### The bindings that a template looks at -/

namespace Template

variable {b c : Bindings} {line : Nat}

mutual

theorem build_congr : (t : Tree) → (∀ name ∈ t.captureOccurrences, b.get? name = c.get? name) →
    build b line t = build c line t
  | .node line' label slots, h => by
    rcases label.capture_or with ⟨name, rfl⟩ | hcapture
    · simp only [build, h name (by simp [Tree.captureOccurrences])]
    · by_cases hleaf : ∃ kind value, label = .leaf kind value
      · obtain ⟨kind, value, rfl⟩ := hleaf
        simp only [build]
      · have hleaf' : ∀ kind value, label ≠ .leaf kind value :=
          fun kind value heq => hleaf ⟨kind, value, heq⟩
        rw [Tree.captureOccurrences_node line' hcapture] at h
        rw [build_node b line line' hleaf' hcapture, build_node c line line' hleaf' hcapture,
          buildSlots_congr slots h]

theorem buildSlots_congr : (slots : List (Option Tree)) →
    (∀ name ∈ Tree.captureOccurrencesIn slots, b.get? name = c.get? name) →
    buildSlots b line slots = buildSlots c line slots
  | [], _ => rfl
  | none :: rest, h => by
    rw [buildSlots, buildSlots, buildSlots_congr rest h]
  | some t :: rest, h => by
    rw [Tree.captureOccurrencesIn] at h
    rw [buildSlots, buildSlots, build_congr t fun name hname => h name (List.mem_append_left _ hname),
      buildSlots_congr rest fun name hname => h name (List.mem_append_right _ hname)]

end

end Template

namespace Arena

variable {a : Arena} {b : Bindings}

theorem Unfolds.hasTree {id : NodeId} (h : a.Unfolds id) (hfits : a.Fits) : ∃ t, a.HasTree id t := by
  obtain ⟨l, hl, hroot⟩ := (unfolds_iff hfits).mp h
  exact ⟨l.tree, l, hl, hroot, rfl⟩

theorem HasTree.tree_eq {id : NodeId} {t : Tree} (h : a.HasTree id t) : a.tree id = .ok t := by
  obtain ⟨l, hl, rfl, rfl⟩ := h
  exact hl.tree_eq

theorem HasTree.contains {id : NodeId} {t : Tree} (h : a.HasTree id t) : a.contains id := by
  obtain ⟨l, hl, rfl, -⟩ := h
  exact hl.contains

/-- Bindings for some names only, with the trees bound to them. -/
theorem exists_bound {f : Assignment} (names : List String)
    (h : ∀ name ∈ names, ∀ id, b.get? name = some id → a.HasTree id (f name)) :
    ∃ c s, a.Bound a.occupied c s ∧ (∀ name, c.get? name = if name ∈ names then b.get? name else none) ∧
      ∀ name, s.get? name = (c.get? name).map fun _ => f name := by
  induction names with
  | nil => exact ⟨[], [], .nil, fun _ => rfl, fun _ => rfl⟩
  | cons first rest ih =>
      obtain ⟨c, s, hbound, hc, hs⟩ := ih fun name hname => h name (List.mem_cons_of_mem _ hname)
      have hold (name : String) (hname : name ≠ first) :
          c.get? name = if name ∈ first :: rest then b.get? name else none := by
        simp [hc, hname]
      cases hfirst : b.get? first with
      | none =>
          refine ⟨c, s, hbound, fun name => ?_, hs⟩
          by_cases hname : name = first
          · rw [hc, hname, hfirst, ite_self, ite_self]
          · exact hold name hname
      | some id =>
          have ht := h first List.mem_cons_self id hfirst
          obtain ⟨d, hd⟩ := contains_iff.mp ht.contains
          have hmem : id ∈ a.occupied := by
            simpa [occupied, lt_size_of_cell? hd] using ht.contains
          refine ⟨(first, id) :: c, (first, f first) :: s, .cons ⟨rfl, hmem, ht⟩ hbound, ?_, ?_⟩
          · intro name
            by_cases hname : name = first
            · rw [hname, if_pos List.mem_cons_self, hfirst]
              simp [Bindings.get?]
            · rw [← hold name hname]
              simp [Bindings.get?, Ne.symm hname]
          · intro name
            by_cases hname : name = first
            · simp [Bindings.get?, TreeBindings.get?, hname]
            · have hrest := hs name
              simp only [Bindings.get?, TreeBindings.get?] at hrest
              simp [Bindings.get?, TreeBindings.get?, Ne.symm hname, hrest]

end Arena

/-! ### Instances -/

namespace Template

variable {r : SnippetReader} {source : String} {t : Template} {a : Arena} {b : Bindings}
  {f : Assignment}

/-- A part of a template is added if its captures are bound, whatever else is bound or not. -/
theorem build_adds {es : List Entry} (line : Nat) {u : Tree} (hshape : u.hasShape = true)
    (ha : a.Owns es)
    (hbound : ∀ name ∈ u.captureOccurrences, ∃ id, b.get? name = some id ∧ a.HasTree id (f name)) :
    (build b line u).Adds a es ((u.atLine line).subst f) := by
  have htrees : ∀ name ∈ u.captureOccurrences, ∀ id, b.get? name = some id → a.HasTree id (f name) := by
    intro name hname id hid
    obtain ⟨id', hid', htree⟩ := hbound name hname
    cases hid.symm.trans hid'
    exact htree
  obtain ⟨c, s, hcs, hc, hs⟩ := Arena.exists_bound u.captureOccurrences htrees
  have hsame : ∀ name ∈ u.captureOccurrences, b.get? name = c.get? name := by
    intro name hname
    rw [hc, if_pos hname]
  have hinstance : u.instantiate s line = .ok ((u.atLine line).subst f) := by
    refine Tree.instantiate_eq_subst u hshape fun name hname => ?_
    obtain ⟨id, hid, -⟩ := hbound name hname
    rw [hs, ← hsame name hname, hid, Option.map_some]
  have hyields := build_yields line u a es ha hcs
  rw [hinstance] at hyields
  rw [build_congr u hsame]
  exact hyields

theorem compiles (ht : r.template source = .ok t) :
    t.tree.hasShape = true ∧ t.tree.captureOccurrences ⊆ t.captures := by
  obtain ⟨s, hs, ht⟩ := bind_eq_ok.mp ht
  cases ht
  obtain ⟨hshape, hcaptures⟩ := SnippetReader.snippet_shaped hs
  exact ⟨hshape, hcaptures ▸ Tree.captureOccurrences_subset s.tree []⟩

theorem exists_trees (hfits : a.Fits) (names : List String)
    (h : ∀ name ∈ names, ∀ id, b.get? name = some id → a.Unfolds id) :
    ∃ f : Assignment, ∀ name ∈ names, ∀ id, b.get? name = some id → a.HasTree id (f name) := by
  have hname (name : String) : ∃ t, name ∈ names → ∀ id, b.get? name = some id → a.HasTree id t := by
    cases hid : b.get? name with
    | none => exact ⟨default, fun _ id hid => by cases hid⟩
    | some id =>
        by_cases hmem : name ∈ names
        · obtain ⟨t, ht⟩ := (h name hmem id hid).hasTree hfits
          exact ⟨t, fun _ id' hid' => Option.some.inj hid' ▸ ht⟩
        · exact ⟨default, fun hmem' => absurd hmem' hmem⟩
  choose f hf using hname
  exact ⟨f, hf⟩

/-- Instantiation is substitution with fresh nodes. Let the captures of a compiled template be bound
to nodes that unfold to trees, in an arena with an exact free list. Then the instance is a new tree
of the arena: the template at the given line with a copy of the bound tree, lines included, in the
place of each capture point. -/
theorem instantiate_gains (line : Nat) (ht : r.template source = .ok t) (hfree : a.FreeExact)
    (hfits : a.Fits) (hbound : ∀ name ∈ t.captures, ∃ id, b.get? name = some id ∧ a.Unfolds id) :
    ∃ f : Assignment,
      (∀ name ∈ t.captures, ∃ id, b.get? name = some id ∧ a.tree id = .ok (f name)) ∧
      ∃ id c, t.instantiate b line a = .ok id c ∧ a.Gains id ((t.tree.atLine line).subst f) c := by
  obtain ⟨hshape, hcaptures⟩ := compiles ht
  obtain ⟨f, hf⟩ := exists_trees hfits t.captures fun name hname id hid => by
    obtain ⟨id', hid', hunfolds⟩ := hbound name hname
    cases hid.symm.trans hid'
    exact hunfolds
  have htrees : ∀ name ∈ t.captures, ∃ id, b.get? name = some id ∧ a.HasTree id (f name) := by
    intro name hname
    obtain ⟨id, hid, -⟩ := hbound name hname
    exact ⟨id, hid, hf name hname id hid⟩
  have howns := Arena.owns_nodeEntries hfree hfits
  refine ⟨f, fun name hname => ?_, (build_adds line hshape howns fun name hname =>
    htrees name (hcaptures hname)).gains howns⟩
  obtain ⟨id, hid, htree⟩ := htrees name hname
  exact ⟨id, hid, htree.tree_eq⟩

/-- A unit that is the call `f()`, with its root in the last of three slots. -/
def callUnit : Arena :=
  .ofTree "unit" Matcher.callTree

theorem callUnit_treeShaped : callUnit.TreeShaped 2 ∧ callUnit.tree 2 = .ok Matcher.callTree := by
  obtain ⟨root, hunit, htree⟩ := Arena.ofTree_treeShaped "unit" (t := Matcher.callTree) (by decide)
  cases hunit.root_eq.symm.trans (show callUnit.root = some 2 by decide +kernel)
  exact ⟨hunit, htree⟩

theorem callUnit_unfolds {id : NodeId} {name : String}
    (h : Bindings.get? [("x", 2)] name = some id) : callUnit.Unfolds id := by
  obtain ⟨hunit, htree⟩ := callUnit_treeShaped
  obtain ⟨-, rfl⟩ : "x" = name ∧ 2 = id := by
    simpa [Bindings.get?, List.find?_cons_eq_some] using h
  exact Arena.unfolds_of_tree hunit.fits htree

def callSquared : Tree :=
  .fixed (.binary .mul) [some Matcher.callTree, some Matcher.callTree] 7

/-- Both factors are copies of the one bound call, and they share no nodes. -/
theorem instantiate_gains_square :
    ∃ t id c, (SnippetReader.ofSigil defaultSigil).template "$x * $x" = .ok t ∧
      t.instantiate [("x", 2)] 7 callUnit = .ok id c ∧ callUnit.Gains id callSquared c := by
  obtain ⟨hunit, htree⟩ := callUnit_treeShaped
  have hcompiles : ((SnippetReader.ofSigil defaultSigil).template "$x * $x").toOption.map
      (fun t => (t.captures, t.tree.atLine 7)) =
        some (["x"], .fixed (.binary .mul) [some (.node 7 (.capture "x") []),
          some (.node 7 (.capture "x") [])] 7) := by
    decide +kernel
  cases ht : (SnippetReader.ofSigil defaultSigil).template "$x * $x" with
  | error e =>
      rw [ht] at hcompiles
      cases hcompiles
  | ok t =>
      rw [ht] at hcompiles
      obtain ⟨hcaptures, hinstance⟩ := Prod.mk.inj (Option.some.inj hcompiles)
      have hx : Bindings.get? [("x", 2)] "x" = some 2 := by decide
      obtain ⟨f, hf, id, c, hc, hgains⟩ := instantiate_gains (b := [("x", 2)]) 7 ht hunit.free
        hunit.fits fun name hname => by
          rw [hcaptures, List.mem_singleton] at hname
          exact ⟨2, hname ▸ hx, callUnit_unfolds hx⟩
      obtain ⟨id', hid', hcall⟩ := hf "x" (by simp [hcaptures])
      cases hx.symm.trans hid'
      have hfx : f "x" = Matcher.callTree := Except.ok.inj (hcall.symm.trans htree)
      refine ⟨t, id, c, rfl, hc, ?_⟩
      simpa [hinstance, Tree.fixed, Tree.subst, Tree.substSlots, hfx, callSquared] using hgains

end Template

end SnippetRewrite
