import SnippetRewrite.Proofs.Arena.Editing

/-!
Arenas whose nodes form one tree. The definition speaks of paths: from the root, each node is
reached by exactly one path of child slots. Main statement: an arena is of this shape if and only if
it owns the entries of one placement.
-/

namespace SnippetRewrite

namespace Arena

open Placement

variable {a : Arena} {l : Placement}

def follow (a : Arena) : NodeId → List Nat → Option NodeId
  | id, [] => some id
  | id, index :: path =>
    match (a.cell? id).bind (·.child? index) with
    | some child => a.follow child path
    | none => none

/-- The nodes of an arena are those of one tree: no child slot dangles, each node is reached from
the root by exactly one path, and the free list holds exactly the slots without a node. -/
structure TreeShaped (a : Arena) (root : NodeId) : Prop where
  root_eq : a.root = some root
  live : a.contains root
  closed : ∀ id c, a.cell? id = some c → ∀ child ∈ c.children, a.contains child
  reached : ∀ id, a.contains id → ∃! path, a.follow root path = some id
  fits : a.Fits
  free : a.FreeExact

/-! ### Paths in a placement -/

theorem child?_eq_some {c : Cell} {index : Nat} {child : NodeId} :
    c.child? index = some child ↔ c.used[index]? = some (some child) := by
  rw [Cell.child?]
  cases c.used[index]? with
  | none => simp
  | some o => simp

theorem mem_children_iff {c : Cell} {child : NodeId} :
    child ∈ c.children ↔ ∃ index, c.child? index = some child := by
  have hmem : child ∈ c.children ↔ some child ∈ c.used := by
    simp [Cell.children]
  simp only [hmem, List.mem_iff_getElem?, child?_eq_some]

theorem Holds.child? (h : a.Holds l) (index : Nat) (child : NodeId) :
    (a.cell? l.root).bind (·.child? index) = some child ↔
      ∃ m, l.slots[index]? = some (some m) ∧ m.root = child := by
  obtain ⟨c, hc, -, -, -, hused⟩ := h.cell
  simp only [hc, Option.bind_some, child?_eq_some, hused, idsOf, List.getElem?_map,
    Option.map_eq_some_iff]
  constructor
  · rintro ⟨o, ho, m, rfl, rfl⟩
    exact ⟨m, ho, rfl⟩
  · rintro ⟨m, hm, rfl⟩
    exact ⟨some m, hm, m, rfl, rfl⟩

theorem follow_cons {m : Placement} {index : Nat} (h : a.Holds l)
    (hm : l.slots[index]? = some (some m)) (path : List Nat) :
    a.follow l.root (index :: path) = a.follow m.root path := by
  rw [follow, (h.child? index m.root).mpr ⟨m, hm, rfl⟩]

theorem exists_of_follow_cons {index : Nat} {path : List Nat} {id : NodeId} (h : a.Holds l)
    (hpath : a.follow l.root (index :: path) = some id) :
    ∃ m, l.slots[index]? = some (some m) ∧ a.Holds m ∧ a.follow m.root path = some id := by
  rw [follow] at hpath
  split at hpath
  · rename_i child hchild
    obtain ⟨m, hm, rfl⟩ := (h.child? index child).mp hchild
    exact ⟨m, hm, h.below.holds (List.mem_of_getElem? hm), hpath⟩
  · cases hpath

theorem mem_idsIn_slots {m : Placement} {index : Nat} {id : NodeId}
    (hm : l.slots[index]? = some (some m)) (hid : id ∈ m.ids) : id ∈ idsIn l.slots :=
  mem_idsIn.mpr ⟨m, List.mem_of_getElem? hm, hid⟩

theorem mem_ids_of_follow {path : List Nat} {id : NodeId} (h : a.Holds l)
    (hpath : a.follow l.root path = some id) : id ∈ l.ids := by
  induction path generalizing l with
  | nil =>
      cases hpath
      exact root_mem_ids l
  | cons index path ih =>
      obtain ⟨m, hm, hholds, hrest⟩ := exists_of_follow_cons h hpath
      have hbelow := mem_idsIn_slots hm (ih hholds hrest)
      cases l
      exact List.mem_cons_of_mem _ hbelow

theorem exists_follow {id : NodeId} (h : a.Holds l) (hid : id ∈ l.ids) :
    ∃ path, a.follow l.root path = some id := by
  induction l using induct with
  | node root line label slots ih =>
      rcases List.mem_cons.mp hid with rfl | hid
      · exact ⟨[], rfl⟩
      · obtain ⟨m, hm, hidm⟩ := mem_idsIn.mp hid
        obtain ⟨path, hpath⟩ := ih m hm (h.below.holds hm) hidm
        obtain ⟨index, hindex⟩ := List.mem_iff_getElem?.mp hm
        exact ⟨index :: path, (follow_cons h hindex path).trans hpath⟩

theorem index_eq_of_nodup {slots : List (Option Placement)} (hnodup : (idsIn slots).Nodup)
    {i j : Nat} {c d : Placement} {id : NodeId} (hc : slots[i]? = some (some c))
    (hd : slots[j]? = some (some d)) (hidc : id ∈ c.ids) (hidd : id ∈ d.ids) : i = j := by
  induction slots generalizing i j with
  | nil => simp at hc
  | cons o rest ih =>
      have hrest : (idsIn rest).Nodup := by
        cases o with
        | none => exact hnodup
        | some l =>
            rw [idsIn, entriesIn, List.map_append] at hnodup
            exact (List.nodup_append.mp hnodup).2.1
      have hfirst {k : Nat} {f e : Placement} (hf : o = some f) (he : rest[k]? = some (some e))
          (hidf : id ∈ f.ids) (hide : id ∈ e.ids) : False := by
        subst hf
        rw [idsIn, entriesIn, List.map_append] at hnodup
        have hidrest : id ∈ idsIn rest := mem_idsIn.mpr ⟨e, List.mem_of_getElem? he, hide⟩
        exact (List.nodup_append.mp hnodup).2.2 id hidf id hidrest rfl
      cases i with
      | zero =>
          cases j with
          | zero => rfl
          | succ j =>
              rw [List.getElem?_cons_succ] at hd
              exact (hfirst (by simpa using hc) hd hidc hidd).elim
      | succ i =>
          rw [List.getElem?_cons_succ] at hc
          cases j with
          | zero => exact (hfirst (by simpa using hd) hc hidd hidc).elim
          | succ j =>
              rw [List.getElem?_cons_succ] at hd
              rw [ih hrest hc hd]

theorem nodup_child {slots : List (Option Placement)} (hnodup : (idsIn slots).Nodup)
    {c : Placement} (hc : some c ∈ slots) : c.ids.Nodup := by
  obtain ⟨before, after, rfl⟩ := List.append_of_mem hc
  rw [idsIn, entriesIn_append, entriesIn, List.map_append, List.map_append] at hnodup
  exact (List.nodup_append.mp (List.nodup_append.mp hnodup).2.1).1

/-- Where no two nodes share a slot, no two paths lead to the same node. -/
theorem follow_injective {p q : List Nat} {id : NodeId} (h : a.Holds l) (hnodup : l.ids.Nodup)
    (hp : a.follow l.root p = some id) (hq : a.follow l.root q = some id) : p = q := by
  -- a path back to the root would put the root below itself
  have hproper {r : List Nat} {i : Nat} (hr : a.follow l.root (i :: r) = some l.root) : False := by
    obtain ⟨m, hm, hholds, hrest⟩ := exists_of_follow_cons h hr
    exact h.root_notMem (mem_idsIn_slots hm (mem_ids_of_follow hholds hrest))
  induction p generalizing l q with
  | nil =>
      cases hp
      cases q with
      | nil => rfl
      | cons j q => exact (hproper hq).elim
  | cons i p ih =>
      cases q with
      | nil =>
          cases hq
          exact (hproper hp).elim
      | cons j q =>
          obtain ⟨m, hm, hholds, hp⟩ := exists_of_follow_cons h hp
          obtain ⟨m', hm', hholds', hq⟩ := exists_of_follow_cons h hq
          have hbelow : (idsIn l.slots).Nodup := by
            cases l
            exact (List.nodup_cons.mp hnodup).2
          have hij := index_eq_of_nodup hbelow hm hm' (mem_ids_of_follow hholds hp)
            (mem_ids_of_follow hholds' hq)
          subst hij
          have hsame : m = m' := by simpa [hm] using hm'
          subst hsame
          have hinner {r : List Nat} {i : Nat} (hr : a.follow m.root (i :: r) = some m.root) :
              False := by
            obtain ⟨k, hk, hkholds, hrest⟩ := exists_of_follow_cons hholds hr
            exact hholds.root_notMem (mem_idsIn_slots hk (mem_ids_of_follow hkholds hrest))
          rw [ih hholds (nodup_child hbelow (List.mem_of_getElem? hm)) hp hq hinner]

/-! ### From paths to a placement -/

theorem exists_holdsIn {ids : List (Option NodeId)}
    (h : ∀ id, some id ∈ ids → ∃ l, a.Holds l ∧ l.root = id) :
    ∃ slots, a.HoldsIn slots ∧ idsOf slots = ids := by
  induction ids with
  | nil => exact ⟨[], by simp [HoldsIn, entriesIn], rfl⟩
  | cons o rest ih =>
      obtain ⟨slots, hholds, hids⟩ := ih fun id hid => h id (List.mem_cons_of_mem _ hid)
      cases o with
      | none => exact ⟨none :: slots, by simpa [HoldsIn, entriesIn] using hholds, by simp [hids]⟩
      | some id =>
          obtain ⟨l, hl, hroot⟩ := h id List.mem_cons_self
          refine ⟨some l :: slots, fun e he => ?_, by simp [hids, hroot]⟩
          rcases List.mem_append.mp he with he | he
          · exact hl e he
          · exact hholds e he

/-- A node below which all nodes are live and all paths are short is the root of a placement. -/
theorem exists_holds_of_follow_lt (hfits : a.Fits) (bound : Nat) {id : NodeId}
    (hlive : ∀ path x, a.follow id path = some x → a.contains x)
    (hbound : ∀ path x, a.follow id path = some x → path.length < bound) :
    ∃ l, a.Holds l ∧ l.root = id := by
  induction bound generalizing id with
  | zero => exact absurd (hbound [] id rfl) (Nat.not_lt_zero _)
  | succ bound ih =>
      obtain ⟨c, hc⟩ := contains_iff.mp (hlive [] id rfl)
      have hchildren : ∀ child, some child ∈ c.used → ∃ l, a.Holds l ∧ l.root = child := by
        intro child hchild
        obtain ⟨index, hindex⟩ := List.mem_iff_getElem?.mp hchild
        have hslot := child?_eq_some.mpr hindex
        have hbelow (path : List Nat) : a.follow id (index :: path) = a.follow child path := by
          simp [follow, hc, hslot]
        refine ih (fun path x hpath => hlive (index :: path) x ((hbelow path).trans hpath)) ?_
        intro path x hpath
        simpa using hbound (index :: path) x ((hbelow path).trans hpath)
      obtain ⟨slots, hslots, hids⟩ := exists_holdsIn hchildren
      refine ⟨.node id c.line c.label slots, fun e he => ?_, rfl⟩
      rcases List.mem_cons.mp he with rfl | he
      · exact ⟨c, hc, hfits id c hc, by simp [Cell.entry, hids]⟩
      · exact hslots e he

theorem follow_append (a : Arena) (id : NodeId) (p q : List Nat) :
    a.follow id (p ++ q) = (a.follow id p).bind fun x => a.follow x q := by
  induction p generalizing id with
  | nil => rfl
  | cons i p ih =>
      simp only [List.cons_append, follow]
      split
      · exact ih _
      · rfl

theorem contains_of_follow
    (hclosed : ∀ id c, a.cell? id = some c → ∀ child ∈ c.children, a.contains child)
    {id x : NodeId} {path : List Nat} (hlive : a.contains id) (h : a.follow id path = some x) :
    a.contains x := by
  induction path generalizing id with
  | nil =>
      cases h
      exact hlive
  | cons i path ih =>
      rw [follow] at h
      split at h
      · rename_i child hchild
        obtain ⟨c, hc, hslot⟩ := Option.bind_eq_some_iff.mp hchild
        exact ih (hclosed id c hc child (mem_children_iff.mpr ⟨i, hslot⟩)) h
      · cases h

/-- A path that meets only nodes, and none of them twice, is not longer than there are slots: its
parts lead to different nodes. -/
theorem follow_length_lt {id x : NodeId} {path : List Nat} (hpath : a.follow id path = some x)
    (hlive : ∀ k y, a.follow id (path.take k) = some y → a.contains y)
    (honce : ∀ i ≤ path.length, ∀ j ≤ path.length, ∀ y, a.follow id (path.take i) = some y →
      a.follow id (path.take j) = some y → i = j) : path.length < a.cells.size := by
  have hpart (k : Nat) : ∃ y, a.follow id (path.take k) = some y := by
    rw [← List.take_append_drop k path, follow_append] at hpath
    obtain ⟨y, hy, -⟩ := Option.bind_eq_some_iff.mp hpath
    exact ⟨y, hy⟩
  -- the first `k` steps of the path end at `node k`
  choose node hnode using hpart
  have hinj : ∀ i ∈ List.range (path.length + 1), ∀ j ∈ List.range (path.length + 1),
      node i = node j → i = j := by
    intro i hi j hj heq
    exact honce i (Nat.lt_succ_iff.mp (List.mem_range.mp hi)) j
      (Nat.lt_succ_iff.mp (List.mem_range.mp hj)) _ (hnode i) (heq ▸ hnode j)
  have hnodup := List.Nodup.map_on hinj List.nodup_range
  have hrange : (List.range (path.length + 1)).map node ⊆ List.range a.cells.size := by
    intro y hy
    obtain ⟨k, -, rfl⟩ := List.mem_map.mp hy
    obtain ⟨c, hc⟩ := contains_iff.mp (hlive k _ (hnode k))
    exact List.mem_range.mpr (lt_size_of_cell? hc)
  have hle := (List.subperm_of_subset hnodup hrange).length_le
  simp only [List.length_map, List.length_range] at hle
  omega

theorem TreeShaped.contains_of_follow {root x : NodeId} {path : List Nat} (h : a.TreeShaped root)
    (hpath : a.follow root path = some x) : a.contains x :=
  Arena.contains_of_follow h.closed h.live hpath

/-- Of the paths in an arena of tree shape, none is longer than there are slots. -/
theorem TreeShaped.length_lt {root : NodeId} (h : a.TreeShaped root) {path : List Nat} {x : NodeId}
    (hpath : a.follow root path = some x) : path.length < a.cells.size := by
  refine follow_length_lt hpath (fun _ _ hy => h.contains_of_follow hy) fun i hi j hj y hyi hyj => ?_
  have hsame := (h.reached y (h.contains_of_follow hyi)).unique hyi hyj
  have hlen := congrArg List.length hsame
  simp only [List.length_take] at hlen
  omega

theorem nodup_idsIn {slots : List (Option Placement)}
    (hchild : ∀ c, some c ∈ slots → c.ids.Nodup)
    (hindex : ∀ (i j : Nat) c d id, slots[i]? = some (some c) → slots[j]? = some (some d) →
      id ∈ c.ids → id ∈ d.ids → i = j) : (idsIn slots).Nodup := by
  induction slots with
  | nil => simp [idsIn, entriesIn]
  | cons o rest ih =>
      have hrest : (idsIn rest).Nodup := by
        refine ih (fun c hc => hchild c (List.mem_cons_of_mem _ hc)) ?_
        intro i j c d id hc hd hidc hidd
        have := hindex (i + 1) (j + 1) c d id (by simpa using hc) (by simpa using hd) hidc hidd
        omega
      cases o with
      | none => exact hrest
      | some l =>
          rw [idsIn, entriesIn, List.map_append]
          refine List.nodup_append.mpr ⟨hchild l List.mem_cons_self, hrest, ?_⟩
          rintro x hx y hy rfl
          obtain ⟨m, hm, hxm⟩ := mem_idsIn.mp hy
          obtain ⟨j, hj⟩ := List.mem_iff_getElem?.mp hm
          have := hindex 0 (j + 1) l m x (by simp) (by simpa using hj) hx hxm
          omega

/-- Where no two paths lead to the same node, no two nodes share a slot. -/
theorem nodup_of_follow_injective (h : a.Holds l)
    (hinj : ∀ p q x, a.follow l.root p = some x → a.follow l.root q = some x → p = q) :
    l.ids.Nodup := by
  induction l using induct with
  | node root line label slots ih =>
      refine List.nodup_cons.mpr ⟨h.root_notMem, nodup_idsIn (fun c hc => ?_) ?_⟩
      · obtain ⟨i, hi⟩ := List.mem_iff_getElem?.mp hc
        refine ih c hc (h.below.holds hc) fun p q x hp hq => ?_
        have := hinj (i :: p) (i :: q) x ((follow_cons h hi p).trans hp)
          ((follow_cons h hi q).trans hq)
        simpa using this
      · intro i j c d id hc hd hidc hidd
        obtain ⟨p, hp⟩ := exists_follow (h.below.holds (List.mem_of_getElem? hc)) hidc
        obtain ⟨q, hq⟩ := exists_follow (h.below.holds (List.mem_of_getElem? hd)) hidd
        have := hinj (i :: p) (j :: q) id ((follow_cons h hc p).trans hp)
          ((follow_cons h hd q).trans hq)
        exact (List.cons.inj this).1

/-- An arena of tree shape owns the entries of a placement. -/
theorem TreeShaped.exists_owns {root : NodeId} (h : a.TreeShaped root) :
    ∃ l : Placement, l.root = root ∧ a.Owns l.entries := by
  obtain ⟨l, hl, rfl⟩ := exists_holds_of_follow_lt h.fits a.cells.size
    (fun _ _ hpath => h.contains_of_follow hpath) fun _ _ hpath => h.length_lt hpath
  refine ⟨l, rfl, hl, ?_, fun id hid => ?_, h.free⟩
  · refine nodup_of_follow_injective hl fun p q x hp hq => ?_
    exact (h.reached x (h.contains_of_follow hp)).unique hp hq
  · obtain ⟨path, hpath, -⟩ := h.reached id hid
    exact mem_ids_of_follow hl hpath

theorem Owns.fits {es : List Entry} (h : a.Owns es) : a.Fits := by
  intro id c hc
  obtain ⟨e, he, rfl⟩ := List.mem_map.mp (h.covers id (contains_iff.mpr ⟨c, hc⟩))
  obtain ⟨d, hd, hfits, -⟩ := h.stores e he
  rw [hc] at hd
  rw [Option.some.inj hd]
  exact hfits

/-- An arena that owns the entries of a placement has the shape of its tree. -/
theorem Owns.treeShaped (h : a.Owns l.entries) (hroot : a.root = some l.root) :
    a.TreeShaped l.root := by
  have hl : a.Holds l := h.holds_all
  refine ⟨hroot, hl.contains, fun id c hc child hchild => ?_, fun id hid => ?_, h.fits, h.free⟩
  · obtain ⟨path, hpath⟩ := exists_follow hl (h.covers id (contains_iff.mpr ⟨c, hc⟩))
    obtain ⟨index, hindex⟩ := mem_children_iff.mp hchild
    have hlonger : a.follow l.root (path ++ [index]) = some child := by
      rw [follow_append, hpath]
      simp [follow, hc, hindex]
    exact hl.contains_of_mem (mem_ids_of_follow hl hlonger)
  · obtain ⟨path, hpath⟩ := exists_follow hl (h.covers id hid)
    exact ⟨path, hpath, fun q hq => follow_injective hl h.nodup hq hpath⟩

theorem empty_owns (origin : String) : (empty origin).Owns [] where
  stores e he := by simp at he
  nodup := List.nodup_nil
  covers id hid := by simp [contains, cell?, empty] at hid
  free := empty_freeExact origin

theorem Owns.withRoot {es : List Entry} (h : a.Owns es) (root : Option NodeId) :
    ({ a with root } : Arena).Owns es :=
  ⟨h.stores, h.nodup, h.covers, h.free.withRoot root⟩

/-- A tree whose nodes have the children that their kinds ask for is the tree of a unit. -/
theorem ofTree_treeShaped (origin : String) {t : Tree} (ht : t.hasShape = true) :
    ∃ root, (ofTree origin t).TreeShaped root ∧ (ofTree origin t).tree root = .ok t := by
  obtain ⟨l, b, hplant, rfl, howns, -⟩ := Edit.plant_adds t ht (empty_owns origin)
  rw [List.append_nil] at howns
  have hunit : ofTree origin l.tree = { b with root := some l.root } := by
    rw [ofTree, Edit.bind_ok hplant]
    rfl
  have howns' := howns.withRoot (some l.root)
  rw [hunit]
  exact ⟨l.root, howns'.treeShaped rfl, howns'.holds_all.tree_eq⟩

end Arena

end SnippetRewrite
