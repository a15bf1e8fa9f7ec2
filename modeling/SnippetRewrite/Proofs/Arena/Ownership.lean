import SnippetRewrite.Proofs.Arena.Placement

/-!
What an arena holds, as a list of entries. An arena owns a list of entries if its nodes are exactly
these, one in each slot, and its free list holds exactly the other slots. Owning is insensitive to
the order of the entries, so each operation has a law that says which entries it adds or takes away
and that no other entry is concerned.
-/

namespace SnippetRewrite

namespace Cell

/-- A cell has at least the child slots that its kind uses. -/
def Fits (c : Cell) : Prop :=
  c.childCount ≤ c.slots.length

def entry (c : Cell) (id : NodeId) : Entry :=
  ⟨id, c.line, c.label, c.used⟩

@[simp] theorem entry_id (c : Cell) (id : NodeId) : (c.entry id).id = id := rfl

theorem Fits.length_used {c : Cell} (h : c.Fits) : c.used.length = c.childCount := by
  rw [used, List.length_take]
  exact Nat.min_eq_left h

theorem Fits.childCount_eq {c : Cell} {slots : List (Option Placement)} (h : c.Fits)
    (hused : c.used = Placement.idsOf slots) : c.childCount = slots.length := by
  rw [← h.length_used, hused, Placement.length_idsOf]

end Cell

namespace Arena

variable {a b : Arena} {es : List Entry}

/-- The arena holds a node in the way an entry says. -/
def Stores (a : Arena) (e : Entry) : Prop :=
  ∃ c, a.cell? e.id = some c ∧ c.Fits ∧ c.entry e.id = e

/-- The free list holds exactly the slots without a node, each once. -/
structure FreeExact (a : Arena) : Prop where
  nodup : a.free.Nodup
  mem_iff : ∀ id, id ∈ a.free ↔ id < a.cells.size ∧ a.cell? id = none

/-- The nodes of the arena are exactly those of some entries. -/
structure Owns (a : Arena) (es : List Entry) : Prop where
  stores : ∀ e ∈ es, a.Stores e
  nodup : (es.map Entry.id).Nodup
  covers : ∀ id, a.contains id → id ∈ es.map Entry.id
  free : a.FreeExact

/-- The second arena has all nodes of the first as they were. -/
structure Grown (a b : Arena) : Prop where
  origin : b.origin = a.origin
  root : b.root = a.root
  cell : ∀ id, a.contains id → b.cell? id = a.cell? id

/-- The second arena has a node in a slot that held none in the first, and is the same otherwise. -/
structure Fills (a : Arena) (id : NodeId) (c : Cell) (b : Arena) : Prop where
  dead : a.cell? id = none
  cell : ∀ x, b.cell? x = if x = id then some c else a.cell? x
  origin : b.origin = a.origin
  root : b.root = a.root

theorem contains_iff {id : NodeId} : a.contains id ↔ ∃ c, a.cell? id = some c := by
  simp [contains, Option.isSome_iff_exists]

theorem lt_size_of_cell? {id : NodeId} {c : Cell} (h : a.cell? id = some c) :
    id < a.cells.size := by
  by_contra hlt
  simp [cell?, Array.getElem?_eq_none (Nat.le_of_not_lt hlt)] at h

theorem cell?_put (a : Arena) (id x : NodeId) (c : Option Cell) :
    (a.put id c).cell? x = if x = id ∧ id < a.cells.size then c else a.cell? x := by
  simp only [cell?, put, Array.getElem?_setIfInBounds]
  by_cases hx : id = x
  · subst hx
    by_cases hlt : id < a.cells.size
    · simp [hlt]
    · simp [hlt]
  · simp [hx, Ne.symm hx]

@[simp] theorem size_put (a : Arena) (id : NodeId) (c : Option Cell) :
    (a.put id c).cells.size = a.cells.size := by
  simp [put]

theorem cell?_vacate (a : Arena) (id x : NodeId) :
    (a.vacate id).cell? x = if x = id then none else a.cell? x := by
  simp only [cell?, vacate, Array.getElem?_setIfInBounds]
  by_cases hx : id = x
  · subst hx
    by_cases hlt : id < a.cells.size <;> simp [hlt]
  · simp [hx, Ne.symm hx]

@[simp] theorem size_vacate (a : Arena) (id : NodeId) :
    (a.vacate id).cells.size = a.cells.size := by
  simp [vacate]

theorem contains_vacate {id x : NodeId} : (a.vacate id).contains x ↔ a.contains x ∧ x ≠ id := by
  by_cases hx : x = id <;> simp [contains, cell?_vacate, hx]

/-- Overwriting a node leaves the same slots with nodes. -/
theorem contains_put_iff {id x : NodeId} {c : Cell} (hlive : a.contains id) :
    (a.put id (some c)).contains x ↔ a.contains x := by
  obtain ⟨d, hd⟩ := contains_iff.mp hlive
  by_cases hx : x = id
  · simp [contains, cell?_put, hx, lt_size_of_cell? hd, hd]
  · simp [contains, cell?_put, hx]

theorem cell?_push (a : Arena) (c : Option Cell) (x : NodeId) :
    Arena.cell? { a with cells := a.cells.push c } x = if x = a.cells.size then c else a.cell? x := by
  simp only [cell?, Array.getElem?_push]
  split <;> rfl

/-! ### Entries and cells -/

theorem Stores.contains {e : Entry} (h : a.Stores e) : a.contains e.id := by
  obtain ⟨c, hc, -⟩ := h
  exact contains_iff.mpr ⟨c, hc⟩

theorem Stores.unique {e f : Entry} (he : a.Stores e) (hf : a.Stores f) (hid : e.id = f.id) :
    e = f := by
  obtain ⟨c, hc, -, hce⟩ := he
  obtain ⟨d, hd, -, hdf⟩ := hf
  rw [hid, hd] at hc
  rw [← hce, ← hdf, Option.some.inj hc, hid]

theorem Stores.congr {e : Entry} (h : a.Stores e) (hcell : b.cell? e.id = a.cell? e.id) :
    b.Stores e := by
  obtain ⟨c, hc, hfits, heq⟩ := h
  exact ⟨c, hcell.trans hc, hfits, heq⟩

theorem Grown.refl (a : Arena) : Grown a a := ⟨rfl, rfl, fun _ _ => rfl⟩

theorem Grown.contains {id : NodeId} (h : Grown a b) (hid : a.contains id) : b.contains id := by
  rw [Arena.contains, h.cell id hid]
  exact hid

theorem Grown.trans {c : Arena} (h : Grown a b) (h' : Grown b c) : Grown a c where
  origin := h'.origin.trans h.origin
  root := h'.root.trans h.root
  cell id hid := (h'.cell id (h.contains hid)).trans (h.cell id hid)

theorem Grown.stores {e : Entry} (h : Grown a b) (he : a.Stores e) : b.Stores e :=
  he.congr (h.cell e.id he.contains)

theorem Fills.grown {id : NodeId} {c : Cell} (h : a.Fills id c b) : a.Grown b where
  origin := h.origin
  root := h.root
  cell x hx := by
    rw [h.cell, if_neg]
    rintro rfl
    simp [Arena.contains, h.dead] at hx

/-! ### The free list -/

theorem empty_freeExact (origin : String) : (empty origin).FreeExact :=
  ⟨List.nodup_nil, fun id => by simp [empty]⟩

theorem FreeExact.vacate {id : NodeId} (h : a.FreeExact) (hlive : a.contains id) :
    (a.vacate id).FreeExact := by
  obtain ⟨c, hc⟩ := contains_iff.mp hlive
  refine ⟨List.nodup_cons.mpr ⟨fun hfree => ?_, h.nodup⟩, fun x => ?_⟩
  · simp [((h.mem_iff id).mp hfree).2] at hc
  · by_cases hx : x = id
    · subst hx
      simp [Arena.vacate, lt_size_of_cell? hc, cell?]
    · rw [cell?_vacate, if_neg hx, size_vacate, ← h.mem_iff]
      simp [Arena.vacate, hx]

theorem FreeExact.put {id : NodeId} (h : a.FreeExact) (hlive : a.contains id) (c : Cell) :
    (a.put id (some c)).FreeExact := by
  obtain ⟨d, hd⟩ := contains_iff.mp hlive
  refine ⟨h.nodup, fun x => ?_⟩
  have hcell : (a.put id (some c)).cell? x = none ↔ a.cell? x = none := by
    rw [cell?_put]
    by_cases hx : x = id
    · simp [hx, lt_size_of_cell? hd, hd]
    · simp [hx]
  rw [size_put, hcell, ← h.mem_iff]
  rfl

theorem FreeExact.withRoot (h : a.FreeExact) (root : Option NodeId) :
    ({ a with root } : Arena).FreeExact :=
  ⟨h.nodup, h.mem_iff⟩

/-! ### Laws of owning -/

theorem Owns.perm {fs : List Entry} (h : a.Owns es) (hp : es.Perm fs) : a.Owns fs where
  stores e he := h.stores e (hp.mem_iff.mpr he)
  nodup := (hp.map _).nodup_iff.mp h.nodup
  covers id hid := (hp.map _).mem_iff.mp (h.covers id hid)
  free := h.free

theorem Owns.contains_iff_mem {id : NodeId} (h : a.Owns es) :
    a.contains id ↔ id ∈ es.map Entry.id := by
  refine ⟨h.covers id, fun hid => ?_⟩
  obtain ⟨e, he, rfl⟩ := List.mem_map.mp hid
  exact (h.stores e he).contains

/-- The owned entries and the free slots together are all slots. -/
theorem Owns.length_add_free (h : a.Owns es) : es.length + a.free.length = a.cells.size := by
  have hdisjoint : List.Disjoint (es.map Entry.id) a.free := by
    intro id hid hfree
    obtain ⟨c, hc⟩ := contains_iff.mp (h.contains_iff_mem.mpr hid)
    simp [((h.free.mem_iff id).mp hfree).2] at hc
  have hperm : (es.map Entry.id ++ a.free).Perm (List.range a.cells.size) := by
    rw [List.perm_ext_iff_of_nodup (h.nodup.append h.free.nodup hdisjoint) List.nodup_range]
    intro id
    rw [List.mem_append, List.mem_range, ← h.contains_iff_mem, h.free.mem_iff, contains_iff]
    constructor
    · rintro (⟨c, hc⟩ | ⟨hlt, -⟩)
      · exact lt_size_of_cell? hc
      · exact hlt
    · intro hlt
      cases hc : a.cell? id with
      | none => exact Or.inr ⟨hlt, rfl⟩
      | some c => exact Or.inl ⟨c, rfl⟩
  simpa using hperm.length_eq

theorem Owns.liveCount_eq (h : a.Owns es) : a.liveCount = es.length := by
  have := h.length_add_free
  simp only [liveCount]
  omega

theorem Owns.vacate {e : Entry} (h : a.Owns (e :: es)) : (a.vacate e.id).Owns es := by
  have hnodup := List.nodup_cons.mp h.nodup
  have hlive := (h.stores e List.mem_cons_self).contains
  refine ⟨fun f hf => ?_, hnodup.2, fun id hid => ?_, h.free.vacate hlive⟩
  · refine (h.stores f (List.mem_cons_of_mem _ hf)).congr ?_
    have hne : f.id ≠ e.id := fun heq =>
      hnodup.1 (List.mem_map.mpr ⟨f, hf, heq⟩)
    simp [cell?_vacate, hne]
  · obtain ⟨hold, hne⟩ := contains_vacate.mp hid
    simpa [hne] using h.covers id hold

theorem Owns.put {e : Entry} {c : Cell} (h : a.Owns (e :: es)) (hc : c.Fits) :
    (a.put e.id (some c)).Owns (c.entry e.id :: es) := by
  have hnodup := List.nodup_cons.mp h.nodup
  have hlive := (h.stores e List.mem_cons_self).contains
  obtain ⟨d, hd⟩ := contains_iff.mp hlive
  have hlt := lt_size_of_cell? hd
  refine ⟨fun f hf => ?_, h.nodup, fun id hid => ?_, h.free.put hlive c⟩
  · rcases List.mem_cons.mp hf with rfl | hf
    · exact ⟨c, by simp [cell?_put, hlt], hc, rfl⟩
    · refine (h.stores f (List.mem_cons_of_mem _ hf)).congr ?_
      have hne : f.id ≠ e.id := fun heq => hnodup.1 (List.mem_map.mpr ⟨f, hf, heq⟩)
      simp [cell?_put, hne]
  · exact h.covers id ((contains_put_iff hlive).mp hid)

/-- Filling a slot that held no node adds its entry. -/
theorem Owns.occupy {id : NodeId} {c : Cell} (h : a.Owns es) (hc : c.Fits)
    (hfills : a.Fills id c b) (hfree : b.FreeExact) : b.Owns (c.entry id :: es) := by
  have hdead : ¬ a.contains id := by simp [Arena.contains, hfills.dead]
  refine ⟨fun e he => ?_, List.nodup_cons.mpr ⟨?_, h.nodup⟩, fun x hx => ?_, hfree⟩
  · rcases List.mem_cons.mp he with rfl | he
    · exact ⟨c, by simp [hfills.cell], hc, rfl⟩
    · exact hfills.grown.stores (h.stores e he)
  · rwa [Cell.entry_id, ← h.contains_iff_mem]
  · by_cases hne : x = id
    · simp [hne]
    · have hold : a.contains x := by simpa [Arena.contains, hfills.cell, hne] using hx
      simpa using Or.inr (h.covers x hold)

end Arena

namespace Edit

/-- A node is stored in a slot that held none, and the free list stays exact. -/
theorem alloc_fills {a : Arena} (h : a.FreeExact) (c : Cell) :
    ∃ id b, alloc c a = .ok id b ∧ a.Fills id c b ∧ b.FreeExact := by
  cases hfree : a.free with
  | cons id free =>
      obtain ⟨hlt, hdead⟩ := (h.mem_iff id).mp (by simp [hfree])
      have hnodup : id ∉ free ∧ free.Nodup := by
        simpa [hfree] using h.nodup
      have hcell (x : NodeId) :
          Arena.cell? { a.put id (some c) with free := free } x =
            if x = id then some c else a.cell? x := by
        have hput := a.cell?_put id x (some c)
        simp only [hlt, and_true] at hput
        exact hput
      refine ⟨id, _, by simp only [alloc, hfree], ⟨hdead, hcell, rfl, rfl⟩, hnodup.2, fun x => ?_⟩
      by_cases hne : x = id
      · simp [hne, hnodup.1, hcell]
      · have hold := h.mem_iff x
        simp only [hfree, List.mem_cons, hne, false_or] at hold
        rw [hcell, if_neg hne]
        simpa [Arena.put] using hold
  | nil =>
      have hdead : a.cell? a.cells.size = none := by
        simp [Arena.cell?]
      have hcell (x : NodeId) :
          Arena.cell? { a with cells := a.cells.push (some c) } x =
            if x = a.cells.size then some c else a.cell? x := a.cell?_push (some c) x
      refine ⟨a.cells.size, _, by simp only [alloc, hfree], ⟨hdead, hcell, rfl, rfl⟩, h.nodup,
        fun x => ?_⟩
      have hold := h.mem_iff x
      rw [hcell, Array.size_push]
      simp only [hfree, List.not_mem_nil, false_iff, not_and] at hold ⊢
      intro hx
      by_cases hne : x = a.cells.size
      · simp [hne]
      · rw [if_neg hne]
        exact hold (Nat.lt_of_le_of_ne (Nat.le_of_lt_succ hx) hne)

theorem alloc_owns {a : Arena} {es : List Entry} (h : a.Owns es) {c : Cell} (hc : c.Fits) :
    ∃ id b, alloc c a = .ok id b ∧ b.Owns (c.entry id :: es) ∧ a.Grown b := by
  obtain ⟨id, b, hx, hfills, hfree⟩ := alloc_fills h.free c
  exact ⟨id, b, hx, h.occupy hc hfills hfree, hfills.grown⟩

end Edit

end SnippetRewrite
