import SnippetRewrite.Proofs.Arena.FreeList
import SnippetRewrite.Proofs.Arena.TreeShape

/-!
Arenas in general. An arena may hold nodes that no root reaches, and nodes that are shared or lie
below themselves; all that is asked for here is an exact free list. Below a node, the arena holds a
tree exactly if all paths down meet live nodes and none comes back to where it has been. What an edit
adds beside such an arena is described by paths: the tree at the new root, its nodes in slots of
their own that held none before, and nothing else changed.
-/

namespace SnippetRewrite

namespace Arena

open Placement

variable {a b : Arena} {l : Placement} {id : NodeId} {t : Tree}

/-- The nodes below a node unfold to a tree: no child slot on the way down dangles, and no node lies
below itself. Two child slots may well lead to the same node. -/
structure Unfolds (a : Arena) (id : NodeId) : Prop where
  live : ∀ path x, a.follow id path = some x → a.contains x
  acyclic : ∀ path cycle x, a.follow id path = some x → a.follow x cycle = some x → cycle = []

/-- A path that met a node twice would hold a cycle. -/
theorem take_injective_of_acyclic {path : List Nat}
    (h : ∀ path cycle x, a.follow id path = some x → a.follow x cycle = some x → cycle = []) :
    ∀ i ≤ path.length, ∀ j ≤ path.length, ∀ y, a.follow id (path.take i) = some y →
      a.follow id (path.take j) = some y → i = j := by
  have hno (i j : Nat) (y : NodeId) (hj : j ≤ path.length) (hyi : a.follow id (path.take i) = some y)
      (hyj : a.follow id (path.take j) = some y) : ¬ i < j := by
    intro hlt
    have hsplit : path.take j = path.take i ++ (path.take j).drop i := by
      conv_lhs => rw [← List.take_append_drop i (path.take j), List.take_take]
      rw [Nat.min_eq_left (Nat.le_of_lt hlt)]
    rw [hsplit, follow_append, hyi, Option.bind_some] at hyj
    have hnil := congrArg List.length (h _ _ y hyi hyj)
    simp only [List.length_drop, List.length_take, List.length_nil] at hnil
    omega
  intro i hi j hj y hyi hyj
  have := hno i j y hj hyi hyj
  have := hno j i y hi hyj hyi
  omega

theorem Unfolds.length_lt (h : a.Unfolds id) {path : List Nat} {x : NodeId}
    (hpath : a.follow id path = some x) : path.length < a.cells.size :=
  follow_length_lt hpath (fun _ y => h.live _ y) (take_injective_of_acyclic h.acyclic)

theorem exists_holds_of_follow (h : a.Holds l) {path : List Nat} {x : NodeId}
    (hpath : a.follow l.root path = some x) : ∃ m, a.Holds m ∧ m.root = x := by
  induction path generalizing l with
  | nil =>
      cases hpath
      exact ⟨l, h, rfl⟩
  | cons index path ih =>
      obtain ⟨m, -, hm, hrest⟩ := exists_of_follow_cons h hpath
      exact ih hm hrest

/-- What unfolds is exactly what an arena holds. -/
theorem unfolds_iff (hfits : a.Fits) : a.Unfolds id ↔ ∃ l, a.Holds l ∧ l.root = id := by
  constructor
  · intro h
    exact exists_holds_of_follow_lt hfits a.cells.size h.live fun _ _ hpath => h.length_lt hpath
  · rintro ⟨l, hl, rfl⟩
    refine ⟨fun path x hpath => hl.contains_of_mem (mem_ids_of_follow hl hpath), ?_⟩
    intro path cycle x hpath hcycle
    obtain ⟨m, hm, rfl⟩ := exists_holds_of_follow hl hpath
    cases cycle with
    | nil => rfl
    | cons index cycle =>
        obtain ⟨k, hk, hkholds, hrest⟩ := exists_of_follow_cons hm hcycle
        exact (hm.root_notMem (mem_idsIn_slots hk (mem_ids_of_follow hkholds hrest))).elim

theorem unfolds_of_tree (hfits : a.Fits) (h : a.tree id = .ok t) : a.Unfolds id := by
  obtain ⟨l, hl, hroot, -⟩ := exists_holds_of_tree hfits h
  exact (unfolds_iff hfits).mpr ⟨l, hl, hroot⟩

/-! ### The nodes of an arena -/

/-- The nodes of an arena, in the order of their slots. -/
def nodeEntries (a : Arena) : List Entry :=
  (List.range a.cells.size).filterMap fun id => (a.cell? id).map (·.entry id)

theorem mem_nodeEntries {e : Entry} :
    e ∈ a.nodeEntries ↔ ∃ c, a.cell? e.id = some c ∧ c.entry e.id = e := by
  simp only [nodeEntries, List.mem_filterMap, List.mem_range, Option.map_eq_some_iff]
  constructor
  · rintro ⟨id, -, c, hc, rfl⟩
    exact ⟨c, hc, rfl⟩
  · rintro ⟨c, hc, he⟩
    exact ⟨e.id, lt_size_of_cell? hc, c, hc, he⟩

/-- An arena with an exact free list owns its nodes, however they hang together. -/
theorem owns_nodeEntries (hfree : a.FreeExact) (hfits : a.Fits) : a.Owns a.nodeEntries where
  stores e he := by
    obtain ⟨c, hc, hentry⟩ := mem_nodeEntries.mp he
    exact ⟨c, hc, hfits e.id c hc, hentry⟩
  nodup := by
    rw [nodeEntries, List.map_filterMap]
    refine List.nodup_range.filterMap fun x y id hx hy => ?_
    simp only [Option.mem_def, Option.map_map, Option.map_eq_some_iff, Function.comp_apply,
      Cell.entry_id] at hx hy
    obtain ⟨-, -, rfl⟩ := hx
    obtain ⟨-, -, rfl⟩ := hy
    rfl
  covers id hid := by
    obtain ⟨c, hc⟩ := contains_iff.mp hid
    exact List.mem_map.mpr ⟨c.entry id, mem_nodeEntries.mpr ⟨c, hc, rfl⟩, rfl⟩
  free := hfree

/-! ### New trees -/

structure Gains (a : Arena) (id : NodeId) (t : Tree) (b : Arena) : Prop where
  tree : b.tree id = .ok t
  /-- All nodes from before are as they were, in the same slots. -/
  kept : a.Grown b
  /-- The nodes of the tree lie in slots that held none. -/
  fresh : ∀ path x, b.follow id path = some x → ¬ a.contains x
  /-- No two places in the tree share a node. -/
  unshared : ∀ p q x, b.follow id p = some x → b.follow id q = some x → p = q
  /-- There are no other new nodes. -/
  only : ∀ x, b.contains x → a.contains x ∨ ∃ path, b.follow id path = some x
  free : b.FreeExact
  liveCount_eq : b.liveCount = a.liveCount + t.size

end Arena

/-- An edit that adds a tree leaves the arena with one more tree and nothing else. -/
theorem Edit.Adds.gains {x : Edit NodeId} {a : Arena} {es : List Entry} {t : Tree}
    (h : x.Adds a es t) (ha : a.Owns es) : ∃ id b, x a = .ok id b ∧ a.Gains id t b := by
  obtain ⟨l, b, hx, rfl, hb, hgrown⟩ := h
  have hl : b.Holds l := hb.holds
  have hnodup : l.ids.Nodup ∧ ∀ id ∈ l.ids, id ∉ es.map Entry.id := by
    have hall := hb.nodup
    rw [List.map_append, List.nodup_append] at hall
    exact ⟨hall.1, fun id hid hold => hall.2.2 id hid id hold rfl⟩
  refine ⟨l.root, b, hx, hl.tree_eq, hgrown, fun path y hpath hold => ?_, fun p q y hp hq => ?_,
    fun y hy => ?_, hb.free, ?_⟩
  · exact hnodup.2 y (Arena.mem_ids_of_follow hl hpath) (ha.covers y hold)
  · exact Arena.follow_injective hl hnodup.1 hp hq
  · have hmem := hb.covers y hy
    rw [List.map_append, List.mem_append, ← ha.contains_iff_mem] at hmem
    exact hmem.symm.imp_right (Arena.exists_follow hl)
  · rw [hb.liveCount_eq, ha.liveCount_eq, Placement.size_tree, List.length_append, Nat.add_comm]

end SnippetRewrite
