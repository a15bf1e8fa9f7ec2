import Mathlib.Data.List.Induction
import SnippetRewrite.Proofs.Arena.Release

/-!
Replacements in arenas whose nodes form a forest. The replacing node may be the top of another tree,
or lie below the node that it replaces; in the latter case the release of what lay there stops at the
empty slot that the replacing node has left. Main statement: the replacement exchanges one subtree
for another and leaves a forest, in which all other nodes are as they were.
-/

namespace SnippetRewrite

namespace Arena

variable {a b : Arena} {id r x y z : NodeId} {p q : List Nat} {i : Nat}

/-- The child in a slot of a node; none where there is no node. -/
def child? (a : Arena) (id : NodeId) (index : Nat) : Option NodeId :=
  (a.cell? id).bind (·.child? index)

structure Forest (a : Arena) : Prop where
  /-- No child slot dangles. -/
  closed : ∀ x i child, a.child? x i = some child → a.contains child
  /-- No node is held by two child slots. -/
  held : ∀ x i y j child, a.child? x i = some child → a.child? y j = some child → x = y ∧ i = j
  /-- No node lies below itself. -/
  acyclic : ∀ x path, a.follow x path = some x → path = []

/-! ### Paths in a forest -/

theorem child?_eq_some_iff {child : NodeId} :
    a.child? x i = some child ↔ ∃ c, a.cell? x = some c ∧ c.child? i = some child :=
  Option.bind_eq_some_iff

theorem contains_of_child? {child : NodeId} (h : a.child? x i = some child) : a.contains x := by
  obtain ⟨c, hc, -⟩ := child?_eq_some_iff.mp h
  exact contains_iff.mpr ⟨c, hc⟩

theorem follow_of_child? {child : NodeId} (h : a.child? x i = some child) (path : List Nat) :
    a.follow x (i :: path) = a.follow child path := by
  have h' : (a.cell? x).bind (·.child? i) = some child := h
  rw [follow, h']

theorem Reaches.of_child? {child : NodeId} (h : a.child? x i = some child) : a.Reaches x child :=
  ⟨[i], follow_of_child? h []⟩

/-- A path with steps begins with a child, and ends behind a node that holds its end. -/
theorem exists_child?_of_follow (h : a.follow x (i :: p) = some y) :
    ∃ child, a.child? x i = some child ∧ a.follow child p = some y := by
  obtain ⟨c, child, hc, hindex, hrest⟩ := follow_cons_iff.mp h
  exact ⟨child, child?_eq_some_iff.mpr ⟨c, hc, hindex⟩, hrest⟩

theorem exists_holder_of_follow (h : a.follow x (p ++ [i]) = some y) :
    ∃ z, a.follow x p = some z ∧ a.child? z i = some y := by
  rw [follow_append, Option.bind_eq_some_iff] at h
  obtain ⟨z, hz, hlast⟩ := h
  obtain ⟨child, hchild, hrest⟩ := exists_child?_of_follow hlast
  cases hrest
  exact ⟨z, hz, hchild⟩

theorem Forest.acyclicBelow (h : a.Forest) (x : NodeId) : a.AcyclicBelow x :=
  fun _ cycle y _ hcycle => h.acyclic y cycle hcycle

theorem Forest.not_reaches_of_reaches (h : a.Forest) (hreach : a.Reaches x y) (hne : x ≠ y) :
    ¬ a.Reaches y x := by
  rintro ⟨q, hq⟩
  obtain ⟨p, hp⟩ := hreach
  have hcycle : a.follow x (p ++ q) = some x := by rw [follow_append, hp, Option.bind_some, hq]
  have hnil := (List.append_eq_nil_iff.mp (h.acyclic x _ hcycle)).1
  rw [hnil] at hp
  exact hne (Option.some.inj hp)

theorem Forest.not_reaches_parent (h : a.Forest) (hheld : a.child? x i = some y) :
    ¬ a.Reaches y x := by
  rintro ⟨path, hpath⟩
  have hcycle := (follow_of_child? hheld path).trans hpath
  exact List.cons_ne_nil i path (h.acyclic x _ hcycle)

/-- What lies properly below a node lies below the holder of the path's end. -/
theorem Forest.reaches_holder (h : a.Forest) (hreach : a.Reaches x y) (hne : y ≠ x)
    (hheld : a.child? z i = some y) : a.Reaches x z := by
  obtain ⟨path, hpath⟩ := hreach
  rcases List.eq_nil_or_concat' path with rfl | ⟨path, j, rfl⟩
  · exact absurd (Option.some.inj hpath).symm hne
  · obtain ⟨z', hz', hchild⟩ := exists_holder_of_follow hpath
    obtain ⟨rfl, -⟩ := h.held _ _ _ _ _ hheld hchild
    exact ⟨path, hz'⟩

/-- Two paths to the same node are parts of one another: going up there is no choice. -/
theorem Forest.meet (h : a.Forest) (hp : a.follow x p = some z) (hq : a.follow y q = some z) :
    (∃ s, p = s ++ q ∧ a.follow x s = some y) ∨ ∃ s, q = s ++ p ∧ a.follow y s = some x := by
  induction p using List.reverseRecOn generalizing q z with
  | nil =>
      cases hp
      exact .inr ⟨q, (List.append_nil q).symm, hq⟩
  | append_singleton p i ih =>
      rcases List.eq_nil_or_concat' q with rfl | ⟨q, j, rfl⟩
      · cases hq
        exact .inl ⟨p ++ [i], (List.append_nil _).symm, hp⟩
      · obtain ⟨u, hu, hui⟩ := exists_holder_of_follow hp
        obtain ⟨v, hv, hvj⟩ := exists_holder_of_follow hq
        obtain ⟨rfl, rfl⟩ := h.held _ _ _ _ _ hui hvj
        rcases ih hu hv with ⟨s, rfl, hs⟩ | ⟨s, rfl, hs⟩
        · exact .inl ⟨s, List.append_assoc _ _ _, hs⟩
        · exact .inr ⟨s, List.append_assoc _ _ _, hs⟩

/-- The nodes of a unit of tree shape form a forest. -/
theorem TreeShaped.forest {root : NodeId} (h : a.TreeShaped root) : a.Forest where
  closed x i child hchild := by
    obtain ⟨c, hc, hindex⟩ := child?_eq_some_iff.mp hchild
    exact h.closed x c hc child (mem_children_iff.mpr ⟨i, hindex⟩)
  held x i y j child hx hy := by
    obtain ⟨p, hp, -⟩ := h.reached x (contains_of_child? hx)
    obtain ⟨q, hq, -⟩ := h.reached y (contains_of_child? hy)
    have hpi : a.follow root (p ++ [i]) = some child := by
      rw [follow_append, hp, Option.bind_some, follow_of_child? hx, follow]
    have hqj : a.follow root (q ++ [j]) = some child := by
      rw [follow_append, hq, Option.bind_some, follow_of_child? hy, follow]
    have hsame := (h.reached child (h.contains_of_follow hpi)).unique hpi hqj
    obtain ⟨rfl, hij⟩ := List.append_inj' hsame rfl
    exact ⟨Option.some.inj (hp.symm.trans hq), (List.cons.inj hij).1⟩
  acyclic x path hpath := by
    cases path with
    | nil => rfl
    | cons i path =>
        obtain ⟨child, hchild, -⟩ := exists_child?_of_follow hpath
        obtain ⟨p, hp, -⟩ := h.reached x (contains_of_child? hchild)
        have hlonger : a.follow root (p ++ i :: path) = some x := by
          rw [follow_append, hp, Option.bind_some, hpath]
        have hsame := (h.reached x (h.contains_of_follow hp)).unique hlonger hp
        exact absurd hsame (by simp)

/-! ### What a replacement frees -/

/-- The nodes that a replacement frees: the slot of the replacing node, and what lies below the
replaced node and not below the replacing one. -/
def Freed (a : Arena) (id r : NodeId) (x : NodeId) : Prop :=
  x = r ∨ a.Reaches id x ∧ x ≠ id ∧ ¬ a.Reaches r x

theorem not_freed_self (hne : id ≠ r) : ¬ a.Freed id r id := by
  rintro (heq | ⟨-, heq, -⟩)
  · exact hne heq
  · exact heq rfl

/-- In the arena without the replacing node, just the nodes to be freed are reached from the children
of the replaced one. -/
theorem Forest.freed_iff (h : a.Forest) {c : Cell} (hc : a.cell? id = some c) (hr : a.contains r)
    (hnot : ¬ a.Reaches r id) :
    (x = r ∨ ∃ child ∈ c.children, (a.vacate r).Reaches child x) ↔ a.Freed id r x := by
  have hclears := vacate_clears hr
  have hdead {y : NodeId} {path : List Nat} (hpath : (a.vacate r).follow r path = some y) : y = r :=
    (reaches_iff_of_dead (hclears.empty r rfl)).mp ⟨path, hpath⟩
  constructor
  · rintro (rfl | ⟨child, hchild, p, hp⟩)
    · exact .inl rfl
    · by_cases hx : x = r
      · exact .inl hx
      obtain ⟨index, hindex⟩ := mem_children_iff.mp hchild
      have hheld : a.child? id index = some child := child?_eq_some_iff.mpr ⟨c, hc, hindex⟩
      have hreach : a.Reaches child x := ⟨p, hclears.follow hp⟩
      refine .inr ⟨(Reaches.of_child? hheld).trans hreach, ?_, ?_⟩
      · rintro rfl
        exact h.not_reaches_parent hheld hreach
      · rintro ⟨q, hq⟩
        -- the way from the replacing node meets the way from the child
        rcases h.meet (hclears.follow hp) hq with ⟨s, rfl, hs⟩ | ⟨s, rfl, hs⟩
        · rw [follow_append, Option.bind_eq_some_iff] at hp
          obtain ⟨z, hz, hrest⟩ := hp
          cases hs.symm.trans (hclears.follow hz)
          exact hx (hdead hrest)
        · by_cases hne : child = r
          · exact hx (hdead (hne ▸ hp))
          · exact hnot (h.reaches_holder ⟨s, hs⟩ hne hheld)
  · rintro (hx | ⟨⟨path, hpath⟩, hne, hnone⟩)
    · exact .inl hx
    · cases path with
      | nil => exact absurd (Option.some.inj hpath).symm hne
      | cons index path =>
          obtain ⟨d, child, hd, hindex, hrest⟩ := follow_cons_iff.mp hpath
          cases hc.symm.trans hd
          refine .inr ⟨child, mem_children_iff.mpr ⟨index, hindex⟩, ?_⟩
          rcases hclears.reaches_or ⟨path, hrest⟩ with hreach | ⟨z, rfl, hreach⟩
          · exact hreach
          · exact absurd hreach hnone

/-! ### The forest afterwards -/

/-- The second arena is the first with the node in the slot `r` moved to the slot `id`. -/
structure Moves (a : Arena) (id r : NodeId) (b : Arena) : Prop where
  moved : b.cell? id = a.cell? r
  freed : ∀ x, a.Freed id r x → b.cell? x = none
  kept : ∀ x, x ≠ id → ¬ a.Freed id r x → b.cell? x = a.cell? x

/-- A move is a matter of clearing what is to be freed, and of overwriting the replaced node. -/
theorem Clears.moves {c moved : Cell} (h : a.Clears (a.Freed id r) b) (hne : id ≠ r)
    (hc : b.cell? id = some c) (hmoved : a.cell? r = some moved) :
    a.Moves id r (b.put id (some moved)) := by
  have hput (x : NodeId) : (b.put id (some moved)).cell? x =
      if x = id then some moved else b.cell? x := by
    rw [cell?_put]
    simp [lt_size_of_cell? hc]
  refine ⟨by rw [hput, if_pos rfl, hmoved], fun x hx => ?_, fun x hx hstays => ?_⟩
  · have hxid : x ≠ id := fun heq => not_freed_self hne (heq ▸ hx)
    rw [hput, if_neg hxid, h.empty x hx]
  · rw [hput, if_neg hx, h.kept x hstays]

theorem Moves.contains_iff (h : a.Moves id r b) (hid : a.contains id) (hr : a.contains r)
    (hne : id ≠ r) : b.contains x ↔ a.contains x ∧ ¬ a.Freed id r x := by
  by_cases hx : x = id
  · rw [hx, Arena.contains, h.moved]
    exact iff_of_true hr ⟨hid, not_freed_self hne⟩
  · by_cases hfreed : a.Freed id r x
    · simp [Arena.contains, h.freed x hfreed, hfreed]
    · simp [Arena.contains, h.kept x hx hfreed, hfreed]

theorem Moves.below (h : a.Moves id r b) (hnot : ¬ a.Reaches r id) (hreach : a.Reaches r x)
    (hx : x ≠ r) : b.cell? x = a.cell? x := by
  refine h.kept x (fun heq => hnot (heq ▸ hreach)) ?_
  rintro (heq | ⟨-, -, hnone⟩)
  · exact hx heq
  · exact hnone hreach

theorem Moves.outside (h : a.Moves id r b) (hx : ¬ a.Reaches id x) (hx' : ¬ a.Reaches r x) :
    b.cell? x = a.cell? x := by
  refine h.kept x (fun heq => hx (heq ▸ .refl a id)) ?_
  rintro (heq | ⟨hreach, -⟩)
  · exact hx' (heq ▸ .refl a r)
  · exact hx hreach

/-- The slot in which a node lay before a move. -/
def slotBefore (id r x : NodeId) : NodeId :=
  if x = id then r else x

theorem Moves.child? {child : NodeId} (h : a.Moves id r b) (hchild : b.child? x i = some child) :
    a.child? (slotBefore id r x) i = some child ∧ (x ≠ id → ¬ a.Freed id r x) := by
  have hlive : x ≠ id → ¬ a.Freed id r x := by
    intro _ hfreed
    have hdead := h.freed x hfreed
    simp [Arena.child?, hdead] at hchild
  refine ⟨?_, hlive⟩
  by_cases hx : x = id
  · rw [slotBefore, if_pos hx]
    rwa [Arena.child?, hx, h.moved] at hchild
  · rw [slotBefore, if_neg hx]
    rwa [Arena.child?, h.kept x hx (hlive hx)] at hchild

/-- A path afterwards was one before, or it passes through the node that was moved. -/
theorem Moves.follow (h : a.Moves id r b) {i : Nat} {path : List Nat}
    (hpath : b.follow x (i :: path) = some y) :
    (∃ j rest, a.follow (slotBefore id r x) (j :: rest) = some y) ∨
      a.Reaches (slotBefore id r x) id ∧ a.Reaches r y := by
  induction path generalizing x i with
  | nil =>
      obtain ⟨child, hchild, hrest⟩ := exists_child?_of_follow hpath
      cases hrest
      exact .inl ⟨i, [], follow_of_child? (h.child? hchild).1 []⟩
  | cons k path ih =>
      obtain ⟨child, hchild, hrest⟩ := exists_child?_of_follow hpath
      have hbefore := (h.child? hchild).1
      have hreach := Reaches.of_child? hbefore
      have hnext := ih hrest
      by_cases hc : child = id
      · subst hc
        rw [slotBefore, if_pos rfl] at hnext
        rcases hnext with ⟨j, rest, hy⟩ | ⟨-, hy⟩
        · exact .inr ⟨hreach, _, hy⟩
        · exact .inr ⟨hreach, hy⟩
      · rw [slotBefore, if_neg hc] at hnext
        rcases hnext with ⟨j, rest, hy⟩ | ⟨hid, hy⟩
        · exact .inl ⟨i, j :: rest, (follow_of_child? hbefore _).trans hy⟩
        · exact .inr ⟨hreach.trans hid, hy⟩

/-- The place of the replacing node: the top of a tree without the replaced node, or properly below
it. -/
def Replaces (a : Arena) (id r : NodeId) : Prop :=
  (∀ x i, a.child? x i ≠ some r) ∧ ¬ a.Reaches r id ∨ a.Reaches id r ∧ r ≠ id

theorem Forest.not_reaches (h : a.Forest) (hplace : a.Replaces id r) : ¬ a.Reaches r id := by
  rcases hplace with ⟨-, hnot⟩ | ⟨hbelow, hne⟩
  · exact hnot
  · exact h.not_reaches_of_reaches hbelow hne.symm

/-- A child of a node that stays is not freed. -/
theorem Forest.not_freed_child {child : NodeId} (h : a.Forest) (hplace : a.Replaces id r)
    (hx : x ≠ id) (hstays : ¬ a.Freed id r x) (hchild : a.child? x i = some child) :
    ¬ a.Freed id r child := by
  have hxr : x ≠ r := fun hx => hstays (.inl hx)
  -- a node that stays and lies below the replaced one lies below the replacing one
  have hbelow (hreach : a.Reaches id x) : a.Reaches r x := by
    by_contra hnone
    exact hstays (.inr ⟨hreach, hx, hnone⟩)
  rintro (rfl | ⟨hreach, hne, hnone⟩)
  · rcases hplace with ⟨htop, -⟩ | ⟨hreach, hne⟩
    · exact htop x i hchild
    · exact h.not_reaches_of_reaches (hbelow (h.reaches_holder hreach hne hchild)) hxr.symm
        (Reaches.of_child? hchild)
  · exact hnone ((hbelow (h.reaches_holder hreach hne hchild)).trans (Reaches.of_child? hchild))

theorem Forest.moves (h : a.Forest) (hplace : a.Replaces id r) (hr : a.contains r)
    (hmoves : a.Moves id r b) : b.Forest where
  closed x i child hchild := by
    obtain ⟨hbefore, hstays⟩ := hmoves.child? hchild
    have hlive := h.closed _ _ _ hbefore
    have hnot : ¬ a.Freed id r child := by
      by_cases hx : x = id
      · rw [slotBefore, if_pos hx] at hbefore
        rintro (rfl | ⟨-, -, hnone⟩)
        · exact h.not_reaches_parent hbefore (.refl a child)
        · exact hnone (Reaches.of_child? hbefore)
      · rw [slotBefore, if_neg hx] at hbefore
        exact h.not_freed_child hplace hx (hstays hx) hbefore
    by_cases hc : child = id
    · rw [Arena.contains, hc, hmoves.moved]
      exact hr
    · rw [Arena.contains, hmoves.kept child hc hnot]
      exact hlive
  held x i y j child hx hy := by
    obtain ⟨hxbefore, hxstays⟩ := hmoves.child? hx
    obtain ⟨hybefore, hystays⟩ := hmoves.child? hy
    obtain ⟨hslot, rfl⟩ := h.held _ _ _ _ _ hxbefore hybefore
    refine ⟨?_, rfl⟩
    -- the slot of the replacing node is empty now, so no two nodes come from one slot
    by_cases hxid : x = id
    · by_cases hyid : y = id
      · rw [hxid, hyid]
      · rw [slotBefore, slotBefore, if_pos hxid, if_neg hyid] at hslot
        exact absurd (.inl hslot.symm) (hystays hyid)
    · by_cases hyid : y = id
      · rw [slotBefore, slotBefore, if_neg hxid, if_pos hyid] at hslot
        exact absurd (.inl hslot) (hxstays hxid)
      · rwa [slotBefore, slotBefore, if_neg hxid, if_neg hyid] at hslot
  acyclic x path hpath := by
    cases path with
    | nil => rfl
    | cons i path =>
        have hnot := h.not_reaches hplace
        rcases hmoves.follow hpath with ⟨j, rest, hcycle⟩ | ⟨hid, hreach⟩
        · by_cases hx : x = id
          · rw [slotBefore, if_pos hx, hx] at hcycle
            exact absurd ⟨_, hcycle⟩ hnot
          · rw [slotBefore, if_neg hx] at hcycle
            exact absurd (h.acyclic x _ hcycle) (List.cons_ne_nil j rest)
        · by_cases hx : x = id
          · exact absurd (hx ▸ hreach) hnot
          · rw [slotBefore, if_neg hx] at hid
            exact absurd (hreach.trans hid) hnot

/-! ### Replacements -/

/-- The second arena is the first with the subtree at `id` replaced by the one at `r`. -/
structure Splices (a : Arena) (id r : NodeId) (b : Arena) : Prop where
  /-- The replaced slot has the line, the label and the children of the replacing node. -/
  moved : b.cell? id = a.cell? r
  /-- What lies below the replacing node is as it was. -/
  below : ∀ x, a.Reaches r x → x ≠ r → b.cell? x = a.cell? x
  /-- What lies outside both subtrees is as it was. -/
  outside : ∀ x, ¬ a.Reaches id x → ¬ a.Reaches r x → b.cell? x = a.cell? x
  /-- Who held the replaced node holds the replacing one. -/
  parent : ∀ x i, a.child? x i = some id → b.child? x i = some id
  forest : b.Forest
  /-- No other nodes are freed, and there are no new ones. -/
  live : ∀ x, b.contains x ↔ a.contains x ∧ ¬ a.Freed id r x
  free : ∃ ids, b.free = ids ++ a.free ∧ ids.Nodup ∧ ∀ x, x ∈ ids ↔ a.Freed id r x ∧ a.contains x
  root : b.root = a.root
  origin : b.origin = a.origin

/-- In a forest a replacement succeeds and exchanges one subtree for another, unless it would move or
free the root of the unit. -/
theorem replaceWith_splices (h : a.Forest) (hid : a.contains id) (hr : a.contains r)
    (hplace : a.Replaces id r) (hmoved : a.root ≠ some r)
    (hbelow : ∀ x, a.root = some x → a.Reaches id x → x = id) :
    ∃ b, Edit.replaceWith id r a = .ok () b ∧ a.Splices id r b := by
  obtain ⟨c, hc⟩ := contains_iff.mp hid
  obtain ⟨moved, hcell⟩ := contains_iff.mp hr
  have hnot := h.not_reaches hplace
  have hne : id ≠ r := fun heq => hnot (heq ▸ .refl a id)
  obtain ⟨b, hclears, hkept, hrun⟩ := Edit.replaceWith_clears hne hcell hc
    ((vacate_clears hr).acyclicBelow (h.acyclicBelow id))
  -- from the given arena on, exactly the nodes to be freed are cleared
  have hfreed : a.Clears (a.Freed id r) b :=
    ((vacate_clears hr).trans hclears).congr fun x => h.freed_iff hc hr hnot
  have hmoves : a.Moves id r (b.put id (some moved)) := hfreed.moves hne hkept hcell
  refine ⟨_, hrun, ?_⟩
  exact
    { moved := hmoves.moved
      below := fun _ hreach hx => hmoves.below hnot hreach hx
      outside := fun _ hx hx' => hmoves.outside hx hx'
      parent := fun x i hheld => by
        -- a parent lies outside both subtrees
        have hx' : ¬ a.Reaches r x := fun hreach => hnot (hreach.trans (.of_child? hheld))
        rw [Arena.child?, hmoves.outside (h.not_reaches_parent hheld) hx']
        exact hheld
      forest := h.moves hplace hr hmoves
      live := fun _ => hmoves.contains_iff hid hr hne
      free := hfreed.free
      root := hfreed.root fun x hx hgone => by
        rcases hgone.1 with rfl | ⟨hreach, hneq, -⟩
        · exact hmoved hx
        · exact hneq (hbelow x hx hreach)
      origin := hfreed.origin }

def echoedSum : Tree :=
  .fixed .echo [some (.fixed (.binary .add) [some (.var "x" 2), some (.literal (.int 0) 3)] 1)] 1

/-- The sum is replaced by its left operand: the operator and the zero are freed, and the variable
takes the slot of the sum. -/
theorem replaceWith_leftOperand :
    (ofTree "unit" echoedSum).Forest ∧ (ofTree "unit" echoedSum).contains 3 ∧
    (ofTree "unit" echoedSum).contains 1 ∧ (ofTree "unit" echoedSum).Replaces 3 1 ∧
    (ofTree "unit" echoedSum).root = some 4 ∧ ¬ (ofTree "unit" echoedSum).Reaches 3 4 ∧
    ∃ b, Edit.replaceWith 3 1 (ofTree "unit" echoedSum) = .ok () b ∧
      (ofTree "unit" echoedSum).Splices 3 1 b := by
  obtain ⟨root, hshape, -⟩ := ofTree_treeShaped "unit" (t := echoedSum) (by decide)
  have hroot : (ofTree "unit" echoedSum).root = some 4 := by decide +kernel
  have hforest := hshape.forest
  have hsum : (ofTree "unit" echoedSum).child? 4 0 = some 3 := by decide +kernel
  have hleft : (ofTree "unit" echoedSum).child? 3 0 = some 1 := by decide +kernel
  have hplace : (ofTree "unit" echoedSum).Replaces 3 1 := .inr ⟨Reaches.of_child? hleft, by decide⟩
  have hnot : ¬ (ofTree "unit" echoedSum).Reaches 3 4 :=
    hforest.not_reaches_of_reaches (Reaches.of_child? hsum) (by decide)
  have hlive : (ofTree "unit" echoedSum).contains 3 ∧ (ofTree "unit" echoedSum).contains 1 := by
    decide +kernel
  refine ⟨hforest, hlive.1, hlive.2, hplace, hroot, hnot, ?_⟩
  refine replaceWith_splices hforest hlive.1 hlive.2 hplace (by rw [hroot]; decide) ?_
  intro x hx hreach
  cases hroot.symm.trans hx
  exact absurd hreach hnot

end Arena

end SnippetRewrite
