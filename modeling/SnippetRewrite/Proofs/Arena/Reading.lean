import SnippetRewrite.Arena.Compare
import SnippetRewrite.Arena.View
import SnippetRewrite.Proofs.Arena.Ownership
import SnippetRewrite.Proofs.Outcome
import SnippetRewrite.Proofs.Syntax.Equality
import SnippetRewrite.Rule.Snippet

/-!
Reading what an arena holds. An arena holds a placement if it stores each of its entries. Then every
walk down from the root reads the tree of the placement: no path meets a slot twice, so the number
of slots bounds the depth of the walk, and the walk never meets a slot without a node.
-/

namespace SnippetRewrite

namespace Placement

def unwrapSingle : Placement → Placement
  | node _ _ (.list .stmtList) [some only] => unwrapSingle only
  | l => l

theorem tree_unwrapSingle (l : Placement) : l.unwrapSingle.tree = l.tree.unwrapSingle := by
  fun_induction unwrapSingle l with
  | case1 id line only ih => simpa [tree, treesIn, Tree.unwrapSingle] using ih
  | case2 l hne =>
      obtain ⟨id, line, label, slots⟩ := l
      rw [Tree.unwrapSingle.eq_def]
      split
      · rename_i line' only heq
        simp only [tree, Tree.node.injEq] at heq
        obtain ⟨-, rfl, hslots⟩ := heq
        -- a list with one statement has one slot, and it is not empty
        rcases slots with _ | ⟨_ | m, _ | ⟨o, rest⟩⟩
        · simp [treesIn] at hslots
        · simp [treesIn] at hslots
        · simp [treesIn_eq_map] at hslots
        · exact (hne id line m rfl).elim
        · simp [treesIn_eq_map] at hslots
      · rfl

theorem entries_unwrapSingle (l : Placement) : l.unwrapSingle.entries ⊆ l.entries := by
  fun_induction unwrapSingle l with
  | case1 id line only ih =>
      refine List.Subset.trans ih ?_
      simp [entries, entriesIn]
  | case2 l hne => exact List.Subset.refl _

end Placement

namespace Arena

open Placement

variable {a b : Arena} {es : List Entry} {l m : Placement} {slots : List (Option Placement)}

/-- The arena stores every node of a placement where the placement says. -/
def Holds (a : Arena) (l : Placement) : Prop :=
  ∀ e ∈ l.entries, a.Stores e

def HoldsIn (a : Arena) (slots : List (Option Placement)) : Prop :=
  ∀ e ∈ entriesIn slots, a.Stores e

/-- All cells have the child slots that their kinds use. -/
def Fits (a : Arena) : Prop :=
  ∀ id c, a.cell? id = some c → c.Fits

theorem HoldsIn.holds (h : a.HoldsIn slots) (hl : some l ∈ slots) : a.Holds l :=
  fun e he => h e (mem_entriesIn.mpr ⟨l, hl, he⟩)

theorem HoldsIn.rest {o : Option Placement} (h : a.HoldsIn (o :: slots)) : a.HoldsIn slots := by
  intro e he
  obtain ⟨l, hl, hel⟩ := mem_entriesIn.mp he
  exact h e (mem_entriesIn.mpr ⟨l, List.mem_cons_of_mem _ hl, hel⟩)

theorem Holds.below (h : a.Holds l) : a.HoldsIn l.slots := by
  intro e he
  rw [Holds, entries_eq] at h
  exact h e (List.mem_cons_of_mem _ he)

theorem Holds.grown (h : a.Holds l) (hg : a.Grown b) : b.Holds l :=
  fun e he => hg.stores (h e he)

theorem Owns.holds (h : a.Owns (l.entries ++ es)) : a.Holds l :=
  fun e he => h.stores e (List.mem_append_left _ he)

theorem Owns.holds_all (h : a.Owns l.entries) : a.Holds l := h.stores

theorem Holds.cell (h : a.Holds l) :
    ∃ c, a.cell? l.root = some c ∧ c.Fits ∧ c.line = l.line ∧ c.label = l.label ∧
      c.used = idsOf l.slots := by
  obtain ⟨c, hc, hfits, heq⟩ := h ⟨l.root, l.line, l.label, idsOf l.slots⟩ (by simp [entries_eq l])
  simp only [Cell.entry, Entry.mk.injEq, true_and] at heq
  exact ⟨c, hc, hfits, heq⟩

theorem Holds.children (h : a.Holds l) :
    ∃ c, a.cell? l.root = some c ∧ c.children = childIds l.slots := by
  obtain ⟨c, hc, -, -, -, hused⟩ := h.cell
  exact ⟨c, hc, by rw [Cell.children, hused, childIds]⟩

theorem Holds.contains (h : a.Holds l) : a.contains l.root := by
  obtain ⟨c, hc, -⟩ := h.cell
  exact contains_iff.mpr ⟨c, hc⟩

theorem Holds.contains_of_mem {id : NodeId} (h : a.Holds l) (hid : id ∈ l.ids) : a.contains id := by
  obtain ⟨e, he, rfl⟩ := List.mem_map.mp hid
  exact (h e he).contains

theorem Holds.line_eq (h : a.Holds l) : a.line l.root = .ok l.line := by
  obtain ⟨c, hc, -, hline, -⟩ := h.cell
  simp [Arena.line, Arena.cell, hc, Except.map, hline]

/-! ### Paths down -/

mutual

/-- An arena holds at most one placement with its root in a given slot. -/
theorem Holds.unique : (l m : Placement) → a.Holds l → a.Holds m → l.root = m.root → l = m
  | .node id line label xs, .node id' line' label' ys, hl, hm, hroot => by
    have heq := (hl _ List.mem_cons_self).unique (hm _ List.mem_cons_self) hroot
    simp only [Entry.mk.injEq] at heq
    obtain ⟨rfl, rfl, rfl, hslots⟩ := heq
    rw [HoldsIn.unique xs ys hl.below hm.below hslots]

theorem HoldsIn.unique : (xs ys : List (Option Placement)) → a.HoldsIn xs → a.HoldsIn ys →
    idsOf xs = idsOf ys → xs = ys
  | [], ys, _, _, hids => by
    cases ys with
    | nil => rfl
    | cons => simp at hids
  | none :: xs, ys, hx, hy, hids => by
    rcases ys with _ | ⟨_ | m, ys⟩
    · simp at hids
    · simp only [idsOf_cons, List.cons.injEq] at hids
      rw [HoldsIn.unique xs ys hx.rest hy.rest hids.2]
    · simp at hids
  | some l :: xs, ys, hx, hy, hids => by
    rcases ys with _ | ⟨_ | m, ys⟩
    · simp at hids
    · simp at hids
    · simp only [idsOf_cons, Option.map_some, List.cons.injEq, Option.some.injEq] at hids
      rw [HoldsIn.unique xs ys hx.rest hy.rest hids.2,
        Holds.unique l m (hx.holds List.mem_cons_self) (hy.holds List.mem_cons_self) hids.1]

end

theorem Holds.root_notMem (h : a.Holds l) : l.root ∉ idsIn l.slots := by
  intro hmem
  obtain ⟨c, hc, hid⟩ := mem_idsIn.mp hmem
  obtain ⟨m, hroot, hsub⟩ := exists_of_mem_ids hid
  have hm : a.Holds m := fun e he => h.below.holds hc e (hsub.subset he)
  -- the same slot holds the same placement, which would be smaller than itself
  rw [Holds.unique m l hm h hroot] at hsub
  obtain ⟨before, after, hslots⟩ := List.append_of_mem hc
  have hlen := hsub.length_le
  rw [entries_eq l, hslots] at hlen
  simp only [entriesIn_append, entriesIn, List.length_cons, List.length_append] at hlen
  omega

theorem exists_depth_eq (slots : List (Option Placement)) :
    depthIn slots = 0 ∨ ∃ l, some l ∈ slots ∧ l.depth = depthIn slots := by
  induction slots with
  | nil => exact Or.inl rfl
  | cons o rest ih =>
      cases o with
      | none => simpa [depthIn] using ih
      | some l =>
          right
          rcases Nat.le_total (depthIn rest) l.depth with hle | hle
          · exact ⟨l, by simp, by simp [depthIn, Nat.max_eq_left hle]⟩
          · rcases ih with hzero | ⟨m, hm, hdepth⟩
            · exact ⟨l, by simp, by simp [depthIn, hzero]⟩
            · exact ⟨m, by simp [hm], by simp [depthIn, Nat.max_eq_right hle, hdepth]⟩

/-- The longest path down meets as many slots as it has nodes. -/
theorem Holds.exists_path (h : a.Holds l) :
    ∃ path : List NodeId, path.length = l.depth ∧ path.Nodup ∧ path ⊆ l.ids := by
  induction l using induct with
  | node id line label slots ih =>
      rcases exists_depth_eq slots with hzero | ⟨c, hc, hdepth⟩
      · exact ⟨[id], by simp [depth, hzero], by simp, by simp⟩
      · obtain ⟨path, hlen, hnodup, hsub⟩ := ih c hc (h.below.holds hc)
        have hin : path ⊆ idsIn slots := fun x hx => mem_idsIn.mpr ⟨c, hc, hsub hx⟩
        exact ⟨id :: path, by simp [depth, hlen, hdepth],
          List.nodup_cons.mpr ⟨fun hx => h.root_notMem (hin hx), hnodup⟩,
          List.cons_subset_cons _ hin⟩

/-- The number of slots bounds the depth of what an arena holds. -/
theorem Holds.depth_le (h : a.Holds l) : l.depth ≤ a.cells.size := by
  obtain ⟨path, hlen, hnodup, hsub⟩ := h.exists_path
  have hrange : path ⊆ List.range a.cells.size := by
    intro id hid
    obtain ⟨c, hc⟩ := contains_iff.mp (h.contains_of_mem (hsub hid))
    exact List.mem_range.mpr (lt_size_of_cell? hc)
  simpa [hlen] using (List.subperm_of_subset hnodup hrange).length_le

theorem Holds.depth_le_depthBound (h : a.Holds l) : l.depth ≤ a.depthBound :=
  Nat.le_succ_of_le h.depth_le

/-! ### Walks -/

theorem mapM_idsOf {α : Type} {f : NodeId → Except Fault α} {g : Placement → α}
    (h : ∀ l, some l ∈ slots → f l.root = .ok (g l)) :
    (idsOf slots).mapM (Option.mapM f) = .ok (slots.map (Option.map g)) := by
  induction slots with
  | nil => rfl
  | cons o rest ih =>
      have hrest := ih fun l hl => h l (List.mem_cons_of_mem _ hl)
      cases o with
      | none => simp [List.mapM_cons, hrest]
      | some l => simp [List.mapM_cons, hrest, h l List.mem_cons_self]

theorem treeWithin_eq (h : a.Holds l) {fuel : Nat} (hdepth : l.depth ≤ fuel) :
    a.treeWithin fuel l.root = .ok l.tree := by
  induction fuel generalizing l with
  | zero => exact absurd l.depth_pos (Nat.not_lt_of_le hdepth)
  | succ fuel ih =>
      obtain ⟨c, hc, -, hline, hlabel, hused⟩ := h.cell
      have hslots : (idsOf l.slots).mapM (Option.mapM (a.treeWithin fuel)) =
          .ok (treesIn l.slots) := by
        rw [treesIn_eq_map]
        refine mapM_idsOf fun m hm => ih (h.below.holds hm) ?_
        exact depth_le_of_mem hm hdepth
      simp only [treeWithin, Arena.cell, hc, hused, hslots, hline, hlabel, ok_bind, pure_eq_ok]
      cases l
      rfl

theorem Holds.tree_eq (h : a.Holds l) : a.tree l.root = .ok l.tree :=
  treeWithin_eq h h.depth_le_depthBound

theorem exists_holdsIn_of_mapM {f : NodeId → Except Fault Tree}
    (hf : ∀ id t, f id = .ok t → ∃ l, a.Holds l ∧ l.root = id ∧ l.tree = t)
    {ids : List (Option NodeId)} {ts : List (Option Tree)}
    (h : ids.mapM (Option.mapM f) = .ok ts) :
    ∃ slots, a.HoldsIn slots ∧ idsOf slots = ids ∧ treesIn slots = ts := by
  induction ids generalizing ts with
  | nil =>
      cases h
      exact ⟨[], by simp [HoldsIn, entriesIn], rfl, rfl⟩
  | cons o rest ih =>
      rw [List.mapM_cons] at h
      obtain ⟨u, hu, h⟩ := bind_eq_ok.mp h
      obtain ⟨us, hus, h⟩ := bind_eq_ok.mp h
      cases h
      obtain ⟨slots, hholds, hids, htrees⟩ := ih hus
      cases o with
      | none =>
          cases hu
          exact ⟨none :: slots, by simpa [HoldsIn, entriesIn] using hholds, by simp [hids],
            by simp [treesIn, htrees]⟩
      | some id =>
          obtain ⟨t, ht, htu⟩ : ∃ t, f id = .ok t ∧ some t = u := by
            cases hid : f id with
            | error e => simp [hid] at hu
            | ok t => simpa [hid] using hu
          obtain ⟨l, hl, hroot, htree⟩ := hf id t ht
          refine ⟨some l :: slots, ?_, by simp [hids, hroot], by simp [treesIn, htrees, htree, htu]⟩
          intro e he
          rcases List.mem_append.mp he with he | he
          · exact hl e he
          · exact hholds e he

theorem exists_holds_of_treeWithin (ha : a.Fits) {fuel : Nat} {id : NodeId} {t : Tree}
    (h : a.treeWithin fuel id = .ok t) : ∃ l, a.Holds l ∧ l.root = id ∧ l.tree = t := by
  induction fuel generalizing id t with
  | zero => simp [treeWithin] at h
  | succ fuel ih =>
      rw [treeWithin] at h
      obtain ⟨c, hc, h⟩ := bind_eq_ok.mp h
      obtain ⟨ts, hts, h⟩ := bind_eq_ok.mp h
      cases h
      have hcell : a.cell? id = some c := by
        simp only [Arena.cell] at hc
        split at hc
        · rename_i d hd
          rw [hd, Except.ok.inj hc]
        · cases hc
      obtain ⟨slots, hholds, hids, htrees⟩ := exists_holdsIn_of_mapM (fun _ _ => ih) hts
      refine ⟨.node id c.line c.label slots, ?_, rfl, by simp [Placement.tree, htrees]⟩
      intro e he
      rcases List.mem_cons.mp he with rfl | he
      · exact ⟨c, hcell, ha id c hcell, by simp [Cell.entry, hids]⟩
      · exact hholds e he

theorem exists_holds_of_tree (ha : a.Fits) {id : NodeId} {t : Tree} (h : a.tree id = .ok t) :
    ∃ l, a.Holds l ∧ l.root = id ∧ l.tree = t :=
  exists_holds_of_treeWithin ha h

/-! ### Text, transparent lists and comparison -/

/-- A visit in source order reads the same slots as one from left to right. -/
theorem inSourceOrder_idsOf {α : Type} (label : Label) {f : NodeId → Except Fault α}
    {g : Placement → α} (h : ∀ l, some l ∈ slots → f l.root = .ok (g l)) :
    label.inSourceOrder f (idsOf slots) = .ok (slots.map (Option.map g)) := by
  rcases label.inSourceOrder_or f (idsOf slots) with horder | horder
  · rw [horder]
    exact mapM_idsOf h
  · have hswapped : (idsOf (swapLast slots)).mapM (Option.mapM f) =
        .ok ((swapLast slots).map (Option.map g)) :=
      mapM_idsOf fun l hl => h l ((swapLast_perm slots).mem_iff.mp hl)
    rw [horder, idsOf, swapLast_map, ← idsOf, hswapped, ← swapLast_map, ok_bind, swapLast_swapLast]
    rfl

theorem printableWithin_eq (h : a.Holds l) {fuel : Nat} (hdepth : l.depth ≤ fuel) :
    a.printableWithin fuel l.root = .ok l.tree := by
  induction fuel generalizing l with
  | zero => exact absurd l.depth_pos (Nat.not_lt_of_le hdepth)
  | succ fuel ih =>
      obtain ⟨c, hc, -, hline, hlabel, hused⟩ := h.cell
      have hslots : l.label.inSourceOrder (a.printableWithin fuel) (idsOf l.slots) =
          .ok (treesIn l.slots) := by
        rw [treesIn_eq_map]
        refine inSourceOrder_idsOf _ fun m hm => ih (h.below.holds hm) ?_
        exact depth_le_of_mem hm hdepth
      simp only [printableWithin, Arena.cell, hc, hused, hslots, hline, hlabel, ok_bind,
        pure_eq_ok]
      cases l
      rfl

theorem Holds.exists_source (h : a.Holds l) : ∃ text, a.sourceOf l.root = .ok text := by
  have hprint : a.printable l.root = .ok l.tree := printableWithin_eq h h.depth_le_depthBound
  simp [sourceOf, hprint]

theorem slots_eq_used {c : Cell} {kind : ListKind} (h : c.label = .list kind) :
    c.slots = c.used := by
  simp [Cell.used, Cell.childCount, h, Label.arity?]

theorem unwrapWithin_eq (h : a.Holds l) {fuel : Nat} (hdepth : l.depth ≤ fuel) :
    a.unwrapWithin fuel l.root = .ok l.unwrapSingle.root := by
  induction fuel generalizing l with
  | zero => exact absurd l.depth_pos (Nat.not_lt_of_le hdepth)
  | succ fuel ih =>
      obtain ⟨c, hc, -, -, hlabel, hused⟩ := h.cell
      simp only [unwrapWithin, Arena.cell, hc, ok_bind]
      fun_cases Placement.unwrapSingle l with
      | case1 id line only =>
          have hslots := (slots_eq_used hlabel).trans hused
          simp only [hlabel, hslots, Placement.label, Placement.slots, idsOf_cons, Option.map_some,
            idsOf_nil]
          have honly : some only ∈ (node id line (.list .stmtList) [some only]).slots :=
            List.mem_cons_self
          exact ih (h.below.holds honly)
            (depth_le_of_mem honly hdepth)
      | case2 l hne =>
          split
          · rename_i only hstmt hslots
            rw [slots_eq_used hstmt, hused] at hslots
            rw [hstmt] at hlabel
            obtain ⟨id, line, label, slots⟩ := l
            rcases slots with _ | ⟨_ | m, _ | ⟨o, rest⟩⟩
            · simp [Placement.slots] at hslots
            · simp [Placement.slots] at hslots
            · simp [Placement.slots] at hslots
            · exact (hne id line m (by rw [hlabel]; rfl)).elim
            · simp [Placement.slots] at hslots
          · rfl

theorem Holds.unwrapSingle_eq (h : a.Holds l) : a.unwrapSingle l.root = .ok l.unwrapSingle.root :=
  unwrapWithin_eq h h.depth_le_depthBound

theorem Holds.unwrapSingle (h : a.Holds l) : a.Holds l.unwrapSingle :=
  fun e he => h e (entries_unwrapSingle l he)

theorem sameSlotsBy_idsOf {same : NodeId → NodeId → Except Fault Bool}
    {xs ys : List (Option Placement)}
    (h : ∀ l m, some l ∈ xs → some m ∈ ys → same l.root m.root = .ok (l.tree.same m.tree)) :
    sameSlotsBy same (idsOf xs) (idsOf ys) = .ok (Tree.sameSlots (treesIn xs) (treesIn ys)) := by
  induction xs generalizing ys with
  | nil =>
      rcases ys with _ | ⟨_ | m, ys⟩ <;> rfl
  | cons o rest ih =>
      rcases o with _ | l
      · rcases ys with _ | ⟨_ | m, ys⟩
        · rfl
        · exact ih fun l m hl hm => h l m (List.mem_cons_of_mem _ hl) (List.mem_cons_of_mem _ hm)
        · rfl
      · rcases ys with _ | ⟨_ | m, ys⟩
        · rfl
        · rfl
        · have hrest := ih fun l m hl hm =>
            h l m (List.mem_cons_of_mem _ hl) (List.mem_cons_of_mem _ hm)
          simp only [idsOf_cons, Option.map_some, sameSlotsBy, treesIn, Tree.sameSlots,
            h l m List.mem_cons_self List.mem_cons_self, ok_bind, hrest, pure_eq_ok]
          cases l.tree.same m.tree <;> rfl

theorem sameWithin_eq (hl : a.Holds l) (hm : b.Holds m) {fuel : Nat} (hdepth : l.depth ≤ fuel) :
    a.sameWithin b fuel l.root m.root = .ok (l.tree.same m.tree) := by
  induction fuel generalizing l m with
  | zero => exact absurd l.depth_pos (Nat.not_lt_of_le hdepth)
  | succ fuel ih =>
      obtain ⟨c, hc, hcfits, -, hclabel, hcused⟩ := hl.cell
      obtain ⟨d, hd, hdfits, -, hdlabel, hdused⟩ := hm.cell
      have hslots : sameSlotsBy (a.sameWithin b fuel) (idsOf l.slots) (idsOf m.slots) =
          .ok (Tree.sameSlots (treesIn l.slots) (treesIn m.slots)) := by
        refine sameSlotsBy_idsOf fun x y hx hy => ih (hl.below.holds hx) (hm.below.holds hy) ?_
        exact depth_le_of_mem hx hdepth
      have hccount := hcfits.childCount_eq hcused
      have hdcount := hdfits.childCount_eq hdused
      have hsame : l.tree.same m.tree =
          (l.label.same m.label && Tree.sameSlots (treesIn l.slots) (treesIn m.slots)) := by
        cases l; cases m; rfl
      simp only [sameWithin, Arena.cell, hc, hd, ok_bind, hclabel, hdlabel, hcused, hdused,
        hccount, hdcount, hslots, pure_eq_ok, hsame]
      by_cases hlen : l.slots.length = m.slots.length
      · cases l.label.same m.label <;> simp [hlen]
      · have hne : Tree.sameSlots (treesIn l.slots) (treesIn m.slots) = false := by
          rw [Bool.eq_false_iff]
          intro heq
          exact hlen (by simpa using Tree.length_eq_of_sameSlots heq)
        simp [hlen, hne]

/-- Comparing held placements is comparing their trees. -/
theorem Holds.same_eq (hl : a.Holds l) (hm : b.Holds m) :
    a.same l.root b m.root = .ok (l.tree.same m.tree) :=
  sameWithin_eq hl hm hl.depth_le_depthBound

end Arena

end SnippetRewrite
