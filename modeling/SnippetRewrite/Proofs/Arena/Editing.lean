import SnippetRewrite.Arena.Copy
import SnippetRewrite.Proofs.Arena.Reading

/-!
Edits that add, free and move whole trees. Each law names the entries that are owned before and
after; the entries `es` are those of all other nodes and go through unchanged. What an edit adds
lies in slots that held no node, since owned entries have different slots.
-/

namespace SnippetRewrite

open Placement

variable {a b : Arena} {es : List Entry} {l : Placement} {slots : List (Option Placement)}

namespace Edit

/-- The edit stores a new tree beside the entries `es` and answers the slot of its root. -/
def Adds (x : Edit NodeId) (a : Arena) (es : List Entry) (t : Tree) : Prop :=
  ∃ (l : Placement) (b : Arena), x a = .ok l.root b ∧ l.tree = t ∧ b.Owns (l.entries ++ es) ∧
    a.Grown b

/-- The edit stores new trees beside the entries `es` and answers the child slots for them. -/
def AddsIn (x : Edit (List (Option NodeId))) (a : Arena) (es : List Entry)
    (ts : List (Option Tree)) : Prop :=
  ∃ (slots : List (Option Placement)) (b : Arena), x a = .ok (idsOf slots) b ∧
    treesIn slots = ts ∧ b.Owns (entriesIn slots ++ es) ∧ a.Grown b

theorem AddsIn.nil (h : a.Owns es) : AddsIn (pure []) a es [] :=
  ⟨[], a, rfl, rfl, h, .refl a⟩

theorem AddsIn.none {x : Edit (List (Option NodeId))} {ts : List (Option Tree)}
    (h : x.AddsIn a es ts) :
    AddsIn (do let ids ← x; pure (Option.none :: ids)) a es (Option.none :: ts) := by
  obtain ⟨slots, b, hx, htrees, howns, hgrown⟩ := h
  exact ⟨Option.none :: slots, b, bind_ok hx, by simp [treesIn, htrees], howns, hgrown⟩

theorem AddsIn.some {x : Edit NodeId} {y : Edit (List (Option NodeId))} {t : Tree}
    {ts : List (Option Tree)} (hx : x.Adds a es t)
    (hy : ∀ b fs, b.Owns (fs ++ es) → a.Grown b → y.AddsIn b (fs ++ es) ts) :
    AddsIn (do let id ← x; let ids ← y; pure (Option.some id :: ids)) a es
      (Option.some t :: ts) := by
  obtain ⟨l, b, hl, htree, hb, hgrown⟩ := hx
  obtain ⟨slots, c, hslots, htrees, hc, hgrown'⟩ := hy b l.entries hb hgrown
  refine ⟨Option.some l :: slots, c, ?_, by simp [treesIn, htree, htrees], ?_,
    hgrown.trans hgrown'⟩
  · rw [bind_ok hl, bind_ok hslots]
    rfl
  · refine hc.perm ?_
    rw [entriesIn, List.append_assoc]
    exact List.perm_append_comm_assoc _ _ _

theorem AddsIn.adds {x : Edit (List (Option NodeId))} {f : List (Option NodeId) → Edit NodeId}
    {ts : List (Option Tree)} {t : Tree} (hx : x.AddsIn a es ts)
    (hf : ∀ slots b, treesIn slots = ts → b.Owns (entriesIn slots ++ es) →
      (f (idsOf slots)).Adds b es t) : (x >>= f).Adds a es t := by
  obtain ⟨slots, b, hslots, htrees, hb, hgrown⟩ := hx
  obtain ⟨l, c, hl, htree, hc, hgrown'⟩ := hf slots b htrees hb
  exact ⟨l, c, by rw [bind_ok hslots, hl], htree, hc, hgrown.trans hgrown'⟩

theorem bind_adds {α : Type} {x : Edit α} {f : α → Edit NodeId} {v : α} {t : Tree}
    (hx : x a = .ok v a) (hf : (f v).Adds a es t) : (x >>= f).Adds a es t := by
  obtain ⟨l, b, hl, htree, hb, hgrown⟩ := hf
  exact ⟨l, b, by rw [bind_ok hx, hl], htree, hb, hgrown⟩

theorem alloc_adds {c : Cell} (h : a.Owns (entriesIn slots ++ es)) (hfits : c.Fits)
    (hused : c.used = idsOf slots) : (alloc c).Adds a es (.node c.line c.label (treesIn slots)) := by
  obtain ⟨id, b, hx, howns, hgrown⟩ := alloc_owns h hfits
  refine ⟨.node id c.line c.label slots, b, hx, rfl, ?_, hgrown⟩
  simpa [entries, Cell.entry, hused] using howns

/-! ### Copies -/

theorem childCount_refill {c : Cell} {ids : List (Option NodeId)} (h : ids.length = c.childCount) :
    Cell.childCount { c with slots := ids ++ c.spare } = ids.length := by
  cases harity : c.label.arity? with
  | some n =>
      rw [h]
      simp [Cell.childCount, harity]
  | none =>
      have hspare : c.spare = [] := by simp [Cell.spare, Cell.childCount, harity]
      simp [Cell.childCount, harity, hspare]

/-- The children are copied before their parent, so they may take slots released in the arena that
is still being read; what is left to copy stays as it is. -/
theorem mapM_addsIn {f : NodeId → Edit NodeId} (ha : a.Owns es)
    (hf : ∀ l, some l ∈ slots → ∀ b fs, b.Owns fs → a.Grown b → (f l.root).Adds b fs l.tree) :
    ((idsOf slots).mapM (Option.mapM f)).AddsIn a es (treesIn slots) := by
  induction slots generalizing a es with
  | nil => exact .nil ha
  | cons o rest ih =>
      have hrest := fun l hl => hf l (List.mem_cons_of_mem _ hl)
      cases o with
      | none =>
          rw [idsOf_cons, List.mapM_cons]
          exact (ih ha hrest).none
      | some l =>
          have hfirst := hf l List.mem_cons_self a es ha (.refl a)
          have hwalk := AddsIn.some hfirst fun b fs hb hgrown =>
            ih hb fun m hm c gs hc hgrown' => hrest m hm c gs hc (hgrown.trans hgrown')
          simpa [List.mapM_cons, treesIn] using hwalk

/-- A cell is filled with the copies of its children and stored. -/
theorem refill_adds {c : Cell} {f : NodeId → Edit NodeId} (hfits : c.Fits) (hline : c.line = l.line)
    (hlabel : c.label = l.label) (hused : c.used = idsOf l.slots)
    (hslots : ((idsOf l.slots).mapM (Option.mapM f)).AddsIn a es (treesIn l.slots)) :
    Adds (do
      let slots ← c.used.mapM (Option.mapM f)
      alloc { c with slots := slots ++ c.spare }) a es l.tree := by
  rw [hused]
  refine hslots.adds fun copies b htrees hb => ?_
  have hlen : (idsOf copies).length = c.childCount := by
    rw [hfits.childCount_eq hused, length_idsOf]
    simpa using congrArg List.length htrees
  have hcount := childCount_refill hlen
  have htree : l.tree = .node c.line c.label (treesIn copies) := by
    rw [htrees, hline, hlabel]
    cases l
    rfl
  rw [htree]
  refine alloc_adds hb ?_ ?_
  · rw [Cell.Fits, hcount]
    simp
  · rw [Cell.used, hcount]
    simp

theorem deepCopyWithin_adds {fuel : Nat} (ha : a.Owns es) (hl : a.Holds l)
    (hdepth : l.depth ≤ fuel) : (deepCopyWithin fuel l.root).Adds a es l.tree := by
  induction fuel generalizing a es l with
  | zero => exact absurd l.depth_pos (Nat.not_lt_of_le hdepth)
  | succ fuel ih =>
      obtain ⟨c, hc, hfits, hline, hlabel, hused⟩ := hl.cell
      have hread : cell l.root a = .ok c a := by
        simp [cell, ofRead, Arena.cell, hc]
      have hslots := mapM_addsIn ha fun m hm b fs hb hgrown =>
        ih hb ((hl.below.holds hm).grown hgrown) (depth_le_of_mem hm hdepth)
      exact bind_adds hread (refill_adds hfits hline hlabel hused hslots)

theorem deepCopy_adds (ha : a.Owns es) (hl : a.Holds l) : (deepCopy l.root).Adds a es l.tree :=
  deepCopyWithin_adds ha hl hl.depth_le_depthBound

/-! ### Single nodes -/

theorem used_ofSlots {label : Label} {ids : List (Option NodeId)} (line : Nat)
    (h : ∀ n, label.arity? = some n → ids.length = n) :
    (Cell.ofSlots line label ids).used = ids ∧ (Cell.ofSlots line label ids).Fits := by
  cases label with
  | fixed kind =>
      have hlen : ids.length = kind.arity := h _ rfl
      simp [Cell.ofSlots, Cell.used, Cell.Fits, Cell.childCount, Label.arity?, ← hlen]
  | decl kind name flags =>
      have hlen : ids.length = kind.arity := h _ rfl
      simp [Cell.ofSlots, Cell.used, Cell.Fits, Cell.childCount, Label.arity?, ← hlen]
  | list kind => simp [Cell.ofSlots, Cell.used, Cell.Fits, Cell.childCount, Label.arity?]
  | leaf kind value =>
      have hnil : ids = [] := List.length_eq_zero_iff.mp (h 0 rfl)
      simp [Cell.ofSlots, Cell.used, Cell.Fits, Cell.childCount, Label.arity?, hnil]
  | capture name =>
      have hnil : ids = [] := List.length_eq_zero_iff.mp (h 0 rfl)
      simp [Cell.ofSlots, Cell.used, Cell.Fits, Cell.childCount, Label.arity?, hnil]

theorem ofSlots_adds {label : Label} (h : a.Owns (entriesIn slots ++ es)) (line : Nat)
    (hlen : ∀ n, label.arity? = some n → slots.length = n) :
    (alloc (Cell.ofSlots line label (idsOf slots))).Adds a es
      (.node line label (treesIn slots)) := by
  obtain ⟨hused, hfits⟩ := used_ofSlots line fun n hn => (length_idsOf slots).trans (hlen n hn)
  have hadds := alloc_adds h hfits hused
  cases label <;> exact hadds

theorem leaf_adds (h : a.Owns es) (kind : LeafKind) (value : Value) (line : Nat) :
    (leaf kind value line).Adds a es (.node line (.leaf kind value) []) := by
  have hnone : a.Owns (entriesIn [] ++ es) := h
  have hlen (n : Nat) (hn : (Label.leaf kind value).arity? = some n) :
      ([] : List (Option Placement)).length = n := Option.some.inj hn
  exact ofSlots_adds hnone line hlen

/-! ### Whole trees -/

theorem mapM_id_addsIn {f : Tree → Edit NodeId} (ha : a.Owns es) {ts : List (Option Tree)}
    (hf : ∀ t, some t ∈ ts → ∀ (b : Arena) fs, b.Owns fs → (f t).Adds b fs t) :
    ((ts.map (Option.map f)).mapM (Option.mapM id)).AddsIn a es ts := by
  induction ts generalizing a es with
  | nil => exact .nil ha
  | cons o rest ih =>
      have hrest := fun t ht => hf t (List.mem_cons_of_mem _ ht)
      cases o with
      | none =>
          rw [List.map_cons, List.mapM_cons]
          exact (ih ha hrest).none
      | some t =>
          have hwalk := AddsIn.some (hf t List.mem_cons_self a es ha) fun b fs hb _ => ih hb hrest
          simpa [List.mapM_cons] using hwalk

/-- Child slots may be filled in another order than they stand. -/
theorem AddsIn.swap {x : Edit (List (Option NodeId))} {ts : List (Option Tree)}
    (hx : x.AddsIn a es ts) :
    (do let ids ← x; pure (swapLast ids) : Edit _).AddsIn a es (swapLast ts) := by
  obtain ⟨slots, b, hslots, rfl, hb, hgrown⟩ := hx
  refine ⟨swapLast slots, b, ?_, ?_, hb.perm ?_, hgrown⟩
  · rw [bind_ok hslots, idsOf, idsOf, swapLast_map]
    rfl
  · rw [treesIn_eq_map, treesIn_eq_map, swapLast_map]
  · exact (entriesIn_perm (swapLast_perm slots).symm).append_right es

theorem inSourceOrder_addsIn (label : Label) {f : Tree → Edit NodeId} (ha : a.Owns es)
    {ts : List (Option Tree)}
    (hf : ∀ t, some t ∈ ts → ∀ (b : Arena) fs, b.Owns fs → (f t).Adds b fs t) :
    (label.inSourceOrder id (ts.map (Option.map f))).AddsIn a es ts := by
  rcases label.inSourceOrder_or id (ts.map (Option.map f)) with horder | horder
  · rw [horder]
    exact mapM_id_addsIn ha hf
  · have hwalk := (mapM_id_addsIn ha fun t ht => hf t ((swapLast_perm ts).mem_iff.mp ht)).swap
    rw [swapLast_swapLast] at hwalk
    rw [horder, swapLast_map]
    exact hwalk

theorem plant_adds (t : Tree) (ht : t.hasShape = true) (ha : a.Owns es) : (plant t).Adds a es t := by
  induction t using Tree.induct generalizing a es with
  | node line label slots ih =>
      obtain ⟨hbelow, harity⟩ := Tree.hasShape_node.mp ht
      rw [plant, Tree.fold_node]
      refine (inSourceOrder_addsIn label ha fun t ht b fs hb => ih t ht (hbelow t ht) hb).adds ?_
      intro stored b htrees hb
      rw [← htrees] at harity ⊢
      exact ofSlots_adds hb line fun n hn => (length_treesIn stored).symm.trans (harity n hn)

end Edit

/-! ### Releases -/

namespace Arena

/-- The first arena frees slots and becomes the second, which owns the entries `es`. -/
structure Frees (a b : Arena) (es : List Entry) : Prop where
  owns : b.Owns es
  root : b.root = a.root
  origin : b.origin = a.origin

theorem foldl_frees {f : Arena → NodeId → Arena} (h : a.Owns (entriesIn slots ++ es))
    (hroot : ∀ r, a.root = some r → r ∉ idsIn slots)
    (hf : ∀ l, some l ∈ slots → ∀ (b : Arena) fs, b.Owns (l.entries ++ fs) →
      (∀ r, b.root = some r → r ∉ l.ids) → b.Frees (f b l.root) fs) :
    a.Frees ((childIds slots).foldl f a) es := by
  induction slots generalizing a with
  | nil => exact ⟨h, rfl, rfl⟩
  | cons o rest ih =>
      have hrest := fun l hl => hf l (List.mem_cons_of_mem _ hl)
      cases o with
      | none => exact ih h hroot hrest
      | some l =>
          rw [entriesIn, List.append_assoc] at h
          have hids (r : NodeId) (hr : a.root = some r) : r ∉ l.ids ∧ r ∉ idsIn rest := by
            have hnot := hroot r hr
            rw [idsIn, entriesIn, List.map_append, List.mem_append, not_or] at hnot
            exact hnot
          have hfirst := hf l List.mem_cons_self a _ h fun r hr => (hids r hr).1
          -- the root of the unit has not changed, so it is not below the other children either
          have hwalk := ih hfirst.owns (fun r hr => (hids r (hfirst.root ▸ hr)).2) hrest
          exact ⟨hwalk.owns, hwalk.root.trans hfirst.root, hwalk.origin.trans hfirst.origin⟩

theorem releaseShallow_frees {e : Entry} (h : a.Owns (e :: es)) (hroot : a.root ≠ some e.id) :
    a.Frees (a.releaseShallow e.id) es := by
  have hlive := (h.stores e List.mem_cons_self).contains
  rw [releaseShallow, if_pos hlive, if_neg hroot]
  exact ⟨h.vacate, rfl, rfl⟩

theorem releaseWithin_frees {fuel : Nat} (h : a.Owns (l.entries ++ es)) (hdepth : l.depth ≤ fuel)
    (hroot : ∀ r, a.root = some r → r ∉ l.ids) : a.Frees (a.releaseWithin fuel l.root) es := by
  induction fuel generalizing a es l with
  | zero => exact absurd l.depth_pos (Nat.not_lt_of_le hdepth)
  | succ fuel ih =>
      have hl : a.Holds l := h.holds
      obtain ⟨c, hc, hchildren⟩ := hl.children
      rw [entries_eq l] at h
      have hbelow : a.Frees ((childIds l.slots).foldl (releaseWithin fuel) a)
          (⟨l.root, l.line, l.label, idsOf l.slots⟩ :: es) := by
        refine foldl_frees (h.perm List.perm_middle.symm) (fun r hr hmem => hroot r hr ?_) ?_
        · cases l
          exact List.mem_cons_of_mem _ hmem
        · intro m hm b fs hb hb'
          exact ih hb (depth_le_of_mem hm hdepth) hb'
      have htop := releaseShallow_frees hbelow.owns fun hr =>
        hroot l.root (hbelow.root ▸ hr) (root_mem_ids l)
      simp only [releaseWithin, hc, hchildren]
      exact ⟨htop.owns, htop.root.trans hbelow.root, htop.origin.trans hbelow.origin⟩

/-- Releasing a tree without the root of the unit frees the slots of its nodes and no others. -/
theorem release_frees (h : a.Owns (l.entries ++ es)) (hroot : ∀ r, a.root = some r → r ∉ l.ids) :
    a.Frees (a.release l.root) es :=
  releaseWithin_frees h h.holds.depth_le_depthBound hroot

end Arena

namespace Edit

/-- Taking a node out of its slot leaves its children without a parent. -/
theorem take_eq (h : a.Owns (l.entries ++ es)) :
    ∃ c, take l.root a = .ok c (a.vacate l.root) ∧ c.Fits ∧ c.line = l.line ∧ c.label = l.label ∧
      c.used = idsOf l.slots ∧ (a.vacate l.root).Owns (entriesIn l.slots ++ es) := by
  have hl : a.Holds l := h.holds
  obtain ⟨c, hc, hfits, hline, hlabel, hused⟩ := hl.cell
  rw [entries_eq l] at h
  refine ⟨c, ?_, hfits, hline, hlabel, hused, h.vacate⟩
  simp only [take, get_bind, hc, modify_bind, pure_ok]

/-- A tree that replaces another is moved to the slot of its root; the nodes below the latter are
freed, and nothing else changes. -/
theorem replaceWith_eq {n r : Placement} (h : a.Owns (r.entries ++ (n.entries ++ es)))
    (hroot : ∀ x, a.root = some x → x ∉ idsIn n.slots) :
    ∃ b, replaceWith n.root r.root a = .ok () b ∧
      a.Frees b ((r.moveTo n.root).entries ++ es) := by
  have hne : n.root ≠ r.root := by
    intro heq
    have hnodup := h.nodup
    rw [entries_eq r, entries_eq n] at hnodup
    simp [heq] at hnodup
  obtain ⟨c, htake, hfits, hline, hlabel, hused, howns⟩ := take_eq h
  -- the new children go behind the old tree, which is now in front
  have howns' : (a.vacate r.root).Owns (n.entries ++ (entriesIn r.slots ++ es)) :=
    howns.perm (List.perm_append_comm_assoc _ _ _)
  have hn : (a.vacate r.root).Holds n := howns'.holds
  obtain ⟨d, hd, hchildren⟩ := hn.children
  rw [entries_eq n] at howns'
  have hfreed : (a.vacate r.root).Frees
      ((childIds n.slots).foldl Arena.release (a.vacate r.root))
      (⟨n.root, n.line, n.label, idsOf n.slots⟩ :: (entriesIn r.slots ++ es)) :=
    Arena.foldl_frees (howns'.perm List.perm_middle.symm) hroot
      fun m _ b fs hb hb' => Arena.release_frees hb hb'
  have hput := hfreed.owns.put hfits
  have hentry : c.entry n.root = ⟨n.root, r.line, r.label, idsOf r.slots⟩ := by
    simp [Cell.entry, hline, hlabel, hused]
  have hlive := (hfreed.owns.stores _ List.mem_cons_self).contains
  rw [hentry] at hput
  refine ⟨_, ?_, hput, hfreed.root, hfreed.origin⟩
  have hcell : cell n.root (a.vacate r.root) = .ok d (a.vacate r.root) := by
    simp only [cell, ofRead, Arena.cell, hd]
  rw [replaceWith, if_neg hne, bind_ok htake, bind_ok hcell]
  simp only [modify_bind, get_bind, hchildren, hlive, if_true, modify_ok]

end Edit

end SnippetRewrite
