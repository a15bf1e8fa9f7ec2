import SnippetRewrite.Proofs.Arena.Unfolding

/-!
Releases in arenas of any shape. Child slots may dangle, and nodes may be shared. Main statements: a
release comes to an end exactly if no node below the one that is released lies below itself; it then
empties exactly the slots that paths of child slots lead to, and puts each of those that held a node
on the free list once. A replacement takes a node out of its slot before it releases anything, so what
lies below that node is cut off from the release.
-/

namespace SnippetRewrite

namespace Arena

variable {a b d : Arena} {id x y z : NodeId} {c : Cell} {path : List Nat}
  {gone gone' : NodeId → Prop}

/-! ### Paths -/

/-- A path of child slots leads from one node to another. -/
def Reaches (a : Arena) (x y : NodeId) : Prop :=
  ∃ path, a.follow x path = some y

theorem Reaches.refl (a : Arena) (x : NodeId) : a.Reaches x x := ⟨[], rfl⟩

theorem Reaches.trans (h : a.Reaches x y) (h' : a.Reaches y z) : a.Reaches x z := by
  obtain ⟨p, hp⟩ := h
  obtain ⟨q, hq⟩ := h'
  exact ⟨p ++ q, by rw [follow_append, hp, Option.bind_some, hq]⟩

theorem follow_cons_iff {index : Nat} : a.follow x (index :: path) = some y ↔
    ∃ c child, a.cell? x = some c ∧ c.child? index = some child ∧ a.follow child path = some y := by
  rw [follow]
  cases hc : a.cell? x with
  | none => simp
  | some c => cases hchild : c.child? index <;> simp [hchild]

theorem reaches_of_mem_children (hc : a.cell? x = some c) (h : y ∈ c.children) : a.Reaches x y := by
  obtain ⟨index, hindex⟩ := mem_children_iff.mp h
  exact ⟨[index], follow_cons_iff.mpr ⟨c, y, hc, hindex, rfl⟩⟩

theorem reaches_iff_of_dead (h : a.cell? x = none) : a.Reaches x y ↔ y = x := by
  constructor
  · rintro ⟨_ | ⟨index, path⟩, hpath⟩
    · exact (Option.some.inj hpath).symm
    · obtain ⟨c, -, hc, -⟩ := follow_cons_iff.mp hpath
      simp [h] at hc
  · rintro rfl
    exact .refl a y

theorem reaches_iff (hc : a.cell? x = some c) :
    a.Reaches x y ↔ (∃ child ∈ c.children, a.Reaches child y) ∨ y = x := by
  constructor
  · rintro ⟨_ | ⟨index, path⟩, hpath⟩
    · exact .inr (Option.some.inj hpath).symm
    · obtain ⟨e, child, he, hindex, hrest⟩ := follow_cons_iff.mp hpath
      cases hc.symm.trans he
      exact .inl ⟨child, mem_children_iff.mpr ⟨index, hindex⟩, path, hrest⟩
  · rintro (⟨child, hchild, hreach⟩ | rfl)
    · exact (reaches_of_mem_children hc hchild).trans hreach
    · exact .refl a y

/-- No node on the way down from a node lies below itself. -/
def AcyclicBelow (a : Arena) (id : NodeId) : Prop :=
  ∀ path cycle x, a.follow id path = some x → a.follow x cycle = some x → cycle = []

theorem AcyclicBelow.of_reaches (h : a.AcyclicBelow x) (hreach : a.Reaches x y) :
    a.AcyclicBelow y := by
  obtain ⟨p, hp⟩ := hreach
  intro path cycle z hpath
  refine h (p ++ path) cycle z ?_
  rw [follow_append, hp, Option.bind_some, hpath]

theorem acyclicBelow_iff (hc : a.cell? x = some c) :
    a.AcyclicBelow x ↔ ∀ child ∈ c.children, a.AcyclicBelow child := by
  refine ⟨fun h child hchild => h.of_reaches (reaches_of_mem_children hc hchild), fun h => ?_⟩
  rintro (_ | ⟨index, path⟩) cycle y hpath hcycle
  · cases hpath
    rcases cycle with _ | ⟨index, cycle⟩
    · rfl
    · -- the way round starts at a child, which it comes back to as well
      obtain ⟨e, child, he, hindex, hrest⟩ := follow_cons_iff.mp hcycle
      cases hc.symm.trans he
      have hround : a.follow child (cycle ++ [index]) = some child := by
        rw [follow_append, hrest, Option.bind_some]
        exact follow_cons_iff.mpr ⟨c, child, hc, hindex, rfl⟩
      simpa using h child (mem_children_iff.mpr ⟨index, hindex⟩) [] _ child rfl hround
  · obtain ⟨e, child, he, hindex, hrest⟩ := follow_cons_iff.mp hpath
    cases hc.symm.trans he
    exact h child (mem_children_iff.mpr ⟨index, hindex⟩) path cycle y hrest hcycle

/-- Where nothing lies below itself, paths are short: all nodes on a path but the last are live. -/
theorem AcyclicBelow.length_lt (h : a.AcyclicBelow id) (hpath : a.follow id path = some x) :
    path.length < a.depthBound := by
  rcases List.eq_nil_or_concat' path with rfl | ⟨path, index, rfl⟩
  · exact Nat.succ_pos _
  · rw [follow_append, Option.bind_eq_some_iff] at hpath
    obtain ⟨y, hy, hlast⟩ := hpath
    have hlive (k : Nat) (z : NodeId) (hz : a.follow id (path.take k) = some z) : a.contains z := by
      -- the rest of the path starts at this node, so it is more than a slot
      have hrest : a.follow z (path.drop k ++ [index]) = some x := by
        rw [← List.take_append_drop k path, follow_append, hz, Option.bind_some] at hy
        rw [follow_append, hy, Option.bind_some, hlast]
      cases hdrop : path.drop k ++ [index] with
      | nil => simp at hdrop
      | cons i rest =>
          rw [hdrop] at hrest
          obtain ⟨c, -, hc, -⟩ := follow_cons_iff.mp hrest
          exact contains_iff.mpr ⟨c, hc⟩
    have hshort := follow_length_lt hy hlive (take_injective_of_acyclic h)
    rw [List.length_append, List.length_singleton, depthBound]
    omega

/-! ### Cleared slots -/

/-- The second arena is the first without the nodes in some slots, which are free afterwards. A root
is kept unless it is among these nodes. -/
structure Clears (a : Arena) (gone : NodeId → Prop) (b : Arena) : Prop where
  empty : ∀ x, gone x → b.cell? x = none
  kept : ∀ x, ¬ gone x → b.cell? x = a.cell? x
  free : ∃ ids, b.free = ids ++ a.free ∧ ids.Nodup ∧ ∀ x, x ∈ ids ↔ gone x ∧ a.contains x
  root : (∀ x, a.root = some x → ¬ (gone x ∧ a.contains x)) → b.root = a.root
  origin : b.origin = a.origin

theorem Clears.refl (h : ∀ x, gone x → a.cell? x = none) : a.Clears gone a where
  empty := h
  kept _ _ := rfl
  free := by
    refine ⟨[], rfl, List.nodup_nil, fun x => ⟨fun hx => absurd hx List.not_mem_nil, ?_⟩⟩
    rintro ⟨hgone, hlive⟩
    simp [Arena.contains, h x hgone] at hlive
  root _ := rfl
  origin := rfl

theorem Clears.congr (h : a.Clears gone b) (hiff : ∀ x, gone x ↔ gone' x) : a.Clears gone' b := by
  rwa [funext fun x => propext (hiff x)] at h

theorem Clears.cell?_eq (h : a.Clears gone b) (hc : b.cell? x = some c) : a.cell? x = some c := by
  by_cases hx : gone x
  · simp [h.empty x hx] at hc
  · rwa [h.kept x hx] at hc

theorem Clears.contains_iff (h : a.Clears gone b) : b.contains x ↔ a.contains x ∧ ¬ gone x := by
  by_cases hx : gone x
  · simp [Arena.contains, h.empty x hx, hx]
  · simp [Arena.contains, h.kept x hx, hx]

theorem Clears.trans (h : a.Clears gone b) (h' : b.Clears gone' d) :
    a.Clears (fun x => gone x ∨ gone' x) d where
  empty x hx := by
    by_cases hx' : gone' x
    · exact h'.empty x hx'
    · rw [h'.kept x hx', h.empty x (hx.resolve_right hx')]
  kept x hx := by
    rw [not_or] at hx
    rw [h'.kept x hx.2, h.kept x hx.1]
  free := by
    obtain ⟨ids, hids, hnodup, hmem⟩ := h.free
    obtain ⟨ids', hids', hnodup', hmem'⟩ := h'.free
    refine ⟨ids' ++ ids, by rw [hids', hids, List.append_assoc], ?_, fun x => ?_⟩
    · refine List.nodup_append'.mpr ⟨hnodup', hnodup, fun x hx' hx => ?_⟩
      exact (h.contains_iff.mp ((hmem' x).mp hx').2).2 ((hmem x).mp hx).1
    · rw [List.mem_append, hmem, hmem', h.contains_iff]
      tauto
  root hroot := by
    have hfirst : b.root = a.root := h.root fun x hx hgone => hroot x hx ⟨.inl hgone.1, hgone.2⟩
    refine (h'.root fun x hx hgone => ?_).trans hfirst
    exact hroot x (hfirst ▸ hx) ⟨.inr hgone.1, (h.contains_iff.mp hgone.2).1⟩
  origin := h'.origin.trans h.origin

theorem vacate_clears (h : a.contains id) : a.Clears (· = id) (a.vacate id) where
  empty x hx := by simp [cell?_vacate, hx]
  kept x hx := by simp [cell?_vacate, hx]
  free := ⟨[id], rfl, List.nodup_singleton id, fun x => by
    rw [List.mem_singleton]
    exact ⟨fun hx => ⟨hx, hx ▸ h⟩, And.left⟩⟩
  root _ := rfl
  origin := rfl

theorem releaseShallow_clears (a : Arena) (id : NodeId) : a.Clears (· = id) (a.releaseShallow id) := by
  rw [releaseShallow]
  split
  · rename_i hlive
    dsimp only
    split
    · rename_i hroot
      have hclears := vacate_clears hlive
      -- the root is the node that is freed
      exact ⟨hclears.empty, hclears.kept, hclears.free,
        fun h => absurd ⟨rfl, hlive⟩ (h id hroot), rfl⟩
    · exact vacate_clears hlive
  · rename_i hdead
    refine .refl fun x hx => ?_
    simpa [hx, Arena.contains] using hdead

/-! ### Paths in what is left -/

theorem Clears.follow (h : a.Clears gone b) (hpath : b.follow x path = some y) :
    a.follow x path = some y := by
  induction path generalizing x with
  | nil => exact hpath
  | cons index path ih =>
      obtain ⟨c, child, hc, hindex, hrest⟩ := follow_cons_iff.mp hpath
      exact follow_cons_iff.mpr ⟨c, child, h.cell?_eq hc, hindex, ih hrest⟩

theorem Clears.reaches (h : a.Clears gone b) : b.Reaches x y → a.Reaches x y
  | ⟨path, hpath⟩ => ⟨path, h.follow hpath⟩

theorem Clears.acyclicBelow (h : a.Clears gone b) (hacyclic : a.AcyclicBelow x) :
    b.AcyclicBelow x :=
  fun path cycle z hpath hcycle => hacyclic path cycle z (h.follow hpath) (h.follow hcycle)

/-- A path is still there, or it has come to a slot that was cleared. -/
theorem Clears.follow_or (h : a.Clears gone b) (hpath : a.follow x path = some y) :
    b.follow x path = some y ∨
      ∃ p q z, path = p ++ q ∧ b.follow x p = some z ∧ gone z ∧ a.follow z q = some y := by
  induction path generalizing x with
  | nil => exact .inl hpath
  | cons index path ih =>
      by_cases hx : gone x
      · exact .inr ⟨[], index :: path, x, rfl, rfl, hx, hpath⟩
      · obtain ⟨c, child, hc, hindex, hrest⟩ := follow_cons_iff.mp hpath
        rw [← h.kept x hx] at hc
        rcases ih hrest with hrest | ⟨p, q, z, rfl, hp, hz, hq⟩
        · exact .inl (follow_cons_iff.mpr ⟨c, child, hc, hindex, hrest⟩)
        · exact .inr ⟨index :: p, q, z, rfl, follow_cons_iff.mpr ⟨c, child, hc, hindex, hp⟩, hz, hq⟩

theorem Clears.reaches_or (h : a.Clears gone b) (hreach : a.Reaches x y) :
    b.Reaches x y ∨ ∃ z, gone z ∧ a.Reaches z y := by
  obtain ⟨path, hpath⟩ := hreach
  rcases h.follow_or hpath with hpath | ⟨-, q, z, -, -, hz, hq⟩
  · exact .inl ⟨path, hpath⟩
  · exact .inr ⟨z, hz, q, hq⟩

/-- What was cleared may have lain on cycles; if it did not, there are no more cycles than in what is
left. -/
theorem Clears.acyclicBelow_of_left (h : a.Clears gone b) (hgone : ∀ y, gone y → a.AcyclicBelow y)
    (hx : b.AcyclicBelow x) : a.AcyclicBelow x := by
  intro path cycle z hpath hcycle
  have hlong : a.follow x (path ++ cycle) = some z := by
    rw [follow_append, hpath, Option.bind_some, hcycle]
  rcases h.follow_or hlong with hkept | ⟨-, q, y, -, -, hy, hq⟩
  · rw [follow_append, Option.bind_eq_some_iff] at hkept
    obtain ⟨z', hpath', hcycle'⟩ := hkept
    cases (h.follow hpath').symm.trans hpath
    exact hx path cycle z hpath' hcycle'
  · exact hgone y hy q cycle z hq hcycle

/-! ### Releases -/

/-- What one node after the other reaches is cleared: what the first leaves of the paths from the
others decides, since the rest is cleared already. -/
theorem Clears.cons {ids : List NodeId} (h : a.Clears (a.Reaches id) b)
    (hrest : b.Clears (fun y => ∃ x ∈ ids, b.Reaches x y) d) :
    a.Clears (fun y => ∃ x ∈ id :: ids, a.Reaches x y) d := by
  refine (h.trans hrest).congr fun y => ?_
  constructor
  · rintro (hy | ⟨x, hx, hy⟩)
    · exact ⟨id, List.mem_cons_self, hy⟩
    · exact ⟨x, List.mem_cons_of_mem _ hx, h.reaches hy⟩
  · rintro ⟨x, hx, hy⟩
    rcases List.mem_cons.mp hx with rfl | hx
    · exact .inl hy
    · rcases h.reaches_or hy with hy | ⟨z, hz, hy⟩
      · exact .inr ⟨x, hx, hy⟩
      · exact .inl (hz.trans hy)

/-- A node is freed after what its children reach. -/
theorem Clears.releaseShallow (h : a.Clears (fun y => ∃ child ∈ c.children, a.Reaches child y) b)
    (hc : a.cell? id = some c) : a.Clears (a.Reaches id) (b.releaseShallow id) :=
  (h.trans (releaseShallow_clears b id)).congr fun _ => (reaches_iff hc).symm

/-- Releasing the nodes of a list one after the other, each after its children and without a bound on
the depth, comes to an end and leaves the second arena. -/
inductive Releases : Arena → List NodeId → Arena → Prop
  | done (a : Arena) : Releases a [] a
  | dead {a b : Arena} {id : NodeId} {ids : List NodeId} (h : a.cell? id = none)
    (hrest : Releases a ids b) : Releases a (id :: ids) b
  | live {a b d : Arena} {id : NodeId} {c : Cell} {ids : List NodeId} (h : a.cell? id = some c)
    (hbelow : Releases a c.children b) (hrest : Releases (b.releaseShallow id) ids d) :
    Releases a (id :: ids) d

variable {ids : List NodeId}

theorem Releases.cons (h : a.Releases [id] b) (hrest : b.Releases ids d) :
    a.Releases (id :: ids) d := by
  cases h with
  | dead h hdone =>
      cases hdone
      exact .dead h hrest
  | live h hbelow hdone =>
      cases hdone
      exact .live h hbelow hrest

/-- A release that ends clears what is reached from the nodes. -/
theorem Releases.clears (h : a.Releases ids b) :
    a.Clears (fun y => ∃ x ∈ ids, a.Reaches x y) b := by
  induction h with
  | done a => exact .refl fun x hx => by simp at hx
  | dead h _ ih => exact Clears.cons (.refl fun x hx => by rwa [(reaches_iff_of_dead h).mp hx]) ih
  | live h _ _ ihbelow ihrest => exact (ihbelow.releaseShallow h).cons ihrest

/-- A release that ends has met no cycle. -/
theorem Releases.acyclicBelow (h : a.Releases ids b) : ∀ x ∈ ids, a.AcyclicBelow x := by
  induction h with
  | done => simp
  | @dead a _ id ids h _ ih =>
      refine List.forall_mem_cons.mpr ⟨fun path cycle x hpath hcycle => ?_, ih⟩
      cases (reaches_iff_of_dead h).mp ⟨path, hpath⟩
      rcases cycle with _ | ⟨index, cycle⟩
      · rfl
      · obtain ⟨c, -, hc, -⟩ := follow_cons_iff.mp hcycle
        simp [h] at hc
  | live h hbelow _ ihbelow ihrest =>
      have hid := (acyclicBelow_iff h).mpr ihbelow
      refine List.forall_mem_cons.mpr ⟨hid, fun x hx => ?_⟩
      -- what the first node reaches is gone, but it was on no cycle
      exact (hbelow.clears.releaseShallow h).acyclicBelow_of_left (fun _ hy => hid.of_reaches hy)
        (ihrest x hx)

theorem releases_foldl {f : Arena → NodeId → Arena}
    (hf : ∀ b gone, a.Clears gone b → ∀ id ∈ ids, b.Releases [id] (f b id)) :
    a.Releases ids (ids.foldl f a) := by
  induction ids generalizing a with
  | nil => exact .done a
  | cons id ids ih =>
      have hself : a.Clears (fun _ => False) a := .refl fun _ h => h.elim
      have hfirst := hf a _ hself id List.mem_cons_self
      refine hfirst.cons (ih fun b gone hb x hx => ?_)
      exact hf b _ (hfirst.clears.trans hb) x (List.mem_cons_of_mem _ hx)

theorem releaseWithin_releases {fuel : Nat}
    (h : ∀ path y, a.follow id path = some y → path.length < fuel) :
    a.Releases [id] (a.releaseWithin fuel id) := by
  induction fuel generalizing a id with
  | zero => exact absurd (h [] id rfl) (Nat.not_lt_zero _)
  | succ fuel ih =>
      rw [releaseWithin]
      cases hc : a.cell? id with
      | none => exact .dead hc (.done a)
      | some c =>
          refine .live hc (releases_foldl fun b gone hb child hchild => ?_) (.done _)
          refine ih fun path y hpath => ?_
          obtain ⟨index, hindex⟩ := mem_children_iff.mp hchild
          have hlonger : a.follow id (index :: path) = some y :=
            follow_cons_iff.mpr ⟨c, child, hc, hindex, hb.follow hpath⟩
          simpa using h (index :: path) y hlonger

/-- The bound on the depth is no bound where nothing lies below itself. -/
theorem foldl_release_releases (h : ∀ id ∈ ids, a.AcyclicBelow id) :
    a.Releases ids (ids.foldl release a) :=
  releases_foldl fun _ _ hb id hid =>
    releaseWithin_releases fun _ _ hpath => (hb.acyclicBelow (h id hid)).length_lt hpath

/-- Releasing nodes comes to an end exactly if no node below them lies below itself. -/
theorem exists_releases_iff : (∃ b, a.Releases ids b) ↔ ∀ id ∈ ids, a.AcyclicBelow id :=
  ⟨fun ⟨_, h⟩ => h.acyclicBelow, fun h => ⟨_, foldl_release_releases h⟩⟩

end Arena

/-! ### Replacements -/

namespace Edit

open Arena

variable {a : Arena} {id replacement : NodeId} {moved c : Cell}

theorem take_ok (h : a.cell? replacement = some moved) :
    take replacement a = .ok moved (a.vacate replacement) := by
  simp only [take, get_bind, h, modify_bind, pure_ok]

/-- A replacement releases the children of the node that it overwrites, in an arena from which the
replacing node is missing. -/
theorem replaceWith_clears (hne : id ≠ replacement) (hmoved : a.cell? replacement = some moved)
    (hc : a.cell? id = some c) (h : (a.vacate replacement).AcyclicBelow id) :
    ∃ b, (a.vacate replacement).Clears
        (fun y => ∃ child ∈ c.children, (a.vacate replacement).Reaches child y) b ∧
      b.cell? id = some c ∧ replaceWith id replacement a = .ok () (b.put id (some moved)) := by
  have hold : (a.vacate replacement).cell? id = some c := by rw [cell?_vacate, if_neg hne, hc]
  have hclears := (foldl_release_releases ((acyclicBelow_iff hold).mp h)).clears
  have hkept : (c.children.foldl Arena.release (a.vacate replacement)).cell? id = some c := by
    rw [hclears.kept id, hold]
    -- a child that leads back to its parent would close a cycle
    rintro ⟨child, hchild, path, hpath⟩
    obtain ⟨index, hindex⟩ := mem_children_iff.mp hchild
    exact List.cons_ne_nil index path
      (h [] _ id rfl (follow_cons_iff.mpr ⟨c, child, hold, hindex, hpath⟩))
  have hread : cell id (a.vacate replacement) = .ok c (a.vacate replacement) := by
    simp only [cell, ofRead, Arena.cell, hold]
  have hlive : (c.children.foldl Arena.release (a.vacate replacement)).contains id :=
    contains_iff.mpr ⟨c, hkept⟩
  refine ⟨_, hclears, hkept, ?_⟩
  rw [replaceWith, if_neg hne, bind_ok (take_ok hmoved), bind_ok hread]
  simp only [modify_bind, get_bind, hlive, if_true, modify_ok]

end Edit

end SnippetRewrite
