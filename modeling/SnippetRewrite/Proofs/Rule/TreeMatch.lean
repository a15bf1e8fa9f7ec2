import SnippetRewrite.Proofs.Arena.Reading
import SnippetRewrite.Rule.Store

/-!
Matching as a function of trees. Whether a pattern matches at a node of an arena, and what its
captures are bound to, depends on the tree under that node and on nothing else; each bound slot
belongs to a node of that tree. A rule store therefore chooses its rule by the tree.
-/

namespace SnippetRewrite

/-- The trees bound to capture names, in the order in which they were bound. -/
abbrev TreeBindings := List (String × Tree)

namespace TreeBindings

def get? (b : TreeBindings) (name : String) : Option Tree :=
  (b.find? fun entry => entry.1 = name).map (·.2)

end TreeBindings

namespace Matcher

/-- The tree that is compared where `t` stands. -/
def seenTree (m : Matcher) (t : Tree) : Tree :=
  if m.unwrapSingle then t.unwrapSingle else t

def bindTree (b : TreeBindings) (name : String) (t : Tree) : Option TreeBindings :=
  match b.get? name with
  | none => some (b ++ [(name, t)])
  | some bound => if bound.same t then some b else none

mutual

/-- Compares a pattern with a tree; `direct` says that the pattern stands in its slot as written,
not inside a transparent list. -/
def treeMatch (m : Matcher) (direct : Bool) :
    Tree → Tree → TreeBindings → Option TreeBindings
  | .node _ label slots, t, b =>
    if m.isTransparent label slots then treeMatchOnly m slots t b
    else
      match label with
      | .capture name => bindTree b name (if direct then t else m.seenTree t)
      | label =>
        if label.same (m.seenTree t).label ∧ slots.length = (m.seenTree t).slots.length then
          treeMatchSlots m slots (m.seenTree t).slots b
        else none

def treeMatchOnly (m : Matcher) : List (Option Tree) → Tree → TreeBindings → Option TreeBindings
  | [some only], t, b => treeMatch m false only t b
  | _, _, _ => none

def treeMatchSlots (m : Matcher) :
    List (Option Tree) → List (Option Tree) → TreeBindings → Option TreeBindings
  | [], [], b => some b
  | none :: ps, none :: ts, b => treeMatchSlots m ps ts b
  | some p :: ps, some t :: ts, b => (treeMatch m true p t b).bind (treeMatchSlots m ps ts)
  | _, _, _ => none

end

end Matcher

def Rule.sides (r : Rule) : Pattern × Template :=
  (r.pattern, r.template)

namespace RuleStore

def sides (s : RuleStore) : List (Pattern × Template) :=
  s.rules.map Rule.sides

/-- The first of some rules, numbered from `id` on, whose pattern matches a tree. -/
def firstOn (m : Matcher) (t : Tree) :
    RuleId → List (Pattern × Template) → Option (RuleId × Template × TreeBindings)
  | _, [] => none
  | id, (p, u) :: rest =>
    match m.treeMatch true p.tree t [] with
    | some s => some (id, u, s)
    | none => firstOn m t (id + 1) rest

end RuleStore

namespace Arena

open Placement

variable {a b : Arena} {es : List Entry} {l : Placement}

def HasTree (a : Arena) (id : NodeId) (t : Tree) : Prop :=
  ∃ l, a.Holds l ∧ l.root = id ∧ l.tree = t

/-- Captures bound in the arena to some of the slots `ids`, and the trees there. -/
def Bound (a : Arena) (ids : List NodeId) (b : Bindings) (s : TreeBindings) : Prop :=
  List.Forall₂ (fun x y => x.1 = y.1 ∧ x.2 ∈ ids ∧ a.HasTree x.2 y.2) b s

/-- The two answers to a match, in an arena and on a tree, say the same. -/
def Agrees (a : Arena) (ids : List NodeId) (x : Except NoMatch Bindings) :
    Option TreeBindings → Prop
  | some s => ∃ b, x = .ok b ∧ a.Bound ids b s
  | none => x = .error .mismatch

theorem HasTree.grown {id : NodeId} {t : Tree} (h : a.HasTree id t) (hg : a.Grown b) :
    b.HasTree id t := by
  obtain ⟨l, hl, hroot, htree⟩ := h
  exact ⟨l, hl.grown hg, hroot, htree⟩

theorem Bound.get? {ids : List NodeId} {b : Bindings} {s : TreeBindings} (h : a.Bound ids b s)
    (name : String) :
    (b.get? name = none ∧ s.get? name = none) ∨
      ∃ id t, b.get? name = some id ∧ s.get? name = some t ∧ a.HasTree id t := by
  induction h with
  | nil => exact Or.inl ⟨rfl, rfl⟩
  | @cons x y b s hxy _ ih =>
      obtain ⟨hname, -, htree⟩ := hxy
      by_cases heq : x.1 = name
      · exact Or.inr ⟨x.2, y.2, by simp [Bindings.get?, heq],
          by simp [TreeBindings.get?, ← hname, heq], htree⟩
      · have hb : Bindings.get? (x :: b) name = Bindings.get? b name := by
          simp [Bindings.get?, heq]
        have hs : TreeBindings.get? (y :: s) name = TreeBindings.get? s name := by
          simp [TreeBindings.get?, ← hname, heq]
        rw [hb, hs]
        exact ih

theorem Bound.names_eq {ids : List NodeId} {b : Bindings} {s : TreeBindings}
    (h : a.Bound ids b s) : b.map (·.1) = s.map (·.1) := by
  induction h with
  | nil => rfl
  | cons hxy _ ih => simp [hxy.1, ih]

theorem Bound.exists_of_mem {ids : List NodeId} {b : Bindings} {s : TreeBindings}
    (h : a.Bound ids b s) {x : String × NodeId} (hx : x ∈ b) :
    ∃ t, (x.1, t) ∈ s ∧ x.2 ∈ ids ∧ a.HasTree x.2 t := by
  induction h with
  | nil => simp at hx
  | @cons z y b s hzy _ ih =>
      rcases List.mem_cons.mp hx with rfl | hx
      · exact ⟨y.2, by simp [hzy.1], hzy.2.1, hzy.2.2⟩
      · obtain ⟨t, ht, hrest⟩ := ih hx
        exact ⟨t, List.mem_cons_of_mem _ ht, hrest⟩

theorem Bound.grown {c : Arena} {ids : List NodeId} {b : Bindings} {s : TreeBindings}
    (h : a.Bound ids b s) (hg : a.Grown c) : c.Bound ids b s :=
  List.Forall₂.imp (fun _ _ hxy => ⟨hxy.1, hxy.2.1, hxy.2.2.grown hg⟩) h

end Arena

namespace Matcher

open Placement

variable {a : Arena} {ids : List NodeId} {b : Bindings} {s : TreeBindings} {l : Placement}

theorem bindCapture_agrees (name : String) (hl : a.Holds l) (hroot : l.root ∈ ids)
    (hb : a.Bound ids b s) :
    a.Agrees ids (bindCapture a b name l.root) (bindTree s name l.tree) := by
  rcases hb.get? name with ⟨hbn, hsn⟩ | ⟨id, t, hbn, hsn, m, hm, rfl, rfl⟩
  · simp only [bindCapture, bindTree, hbn, hsn]
    refine ⟨_, rfl, ?_⟩
    exact List.rel_append hb (List.Forall₂.cons ⟨rfl, hroot, l, hl, rfl, rfl⟩ .nil)
  · simp only [bindCapture, bindTree, hbn, hsn, hm.same_eq hl, look, Except.mapError, ok_bind]
    cases m.tree.same l.tree with
    | false => rfl
    | true => exact ⟨b, rfl, hb⟩

theorem seen_eq (m : Matcher) (hl : a.Holds l) :
    ∃ k, a.Holds k ∧ k.entries ⊆ l.entries ∧ m.seen a l.root = .ok k.root ∧
      k.tree = m.seenTree l.tree := by
  cases hm : m.unwrapSingle with
  | false => exact ⟨l, hl, List.Subset.refl _, by simp [seen, hm], by simp [seenTree, hm]⟩
  | true =>
      exact ⟨l.unwrapSingle, hl.unwrapSingle, entries_unwrapSingle l,
        by simp [seen, hm, hl.unwrapSingle_eq, look, Except.mapError],
        by simp [seenTree, hm, tree_unwrapSingle]⟩

/-! Equations of the matcher: one for capture points, one for all other nodes. -/

theorem matchTree_capture (m : Matcher) (direct : Bool) (line : Nat) (name : String)
    (slots : List (Option Tree)) (id : NodeId) (b : Bindings) :
    m.matchTree a direct (.node line (.capture name) slots) id b =
      (do bindCapture a b name (← if direct then pure id else m.seen a id)) := by
  simp [matchTree, isTransparent, Label.isStmtList]

theorem treeMatch_capture (m : Matcher) (direct : Bool) (line : Nat) (name : String)
    (slots : List (Option Tree)) (t : Tree) (s : TreeBindings) :
    m.treeMatch direct (.node line (.capture name) slots) t s =
      bindTree s name (if direct then t else m.seenTree t) := by
  simp [treeMatch, isTransparent, Label.isStmtList]

theorem matchTree_node (m : Matcher) (direct : Bool) (line : Nat) {label : Label}
    (hlabel : ∀ name, label ≠ .capture name) (slots : List (Option Tree)) (id : NodeId)
    (b : Bindings) :
    m.matchTree a direct (.node line label slots) id b =
      if m.isTransparent label slots then m.matchOnly a slots id b
      else (do
        let c ← look (a.cell (← m.seen a id))
        if label.same c.label ∧ slots.length = c.childCount then m.matchSlots a slots c.used b
        else throw .mismatch) := by
  cases label with
  | capture name => exact (hlabel name rfl).elim
  | _ => rw [matchTree]; simp

theorem treeMatch_node (m : Matcher) (direct : Bool) (line : Nat) {label : Label}
    (hlabel : ∀ name, label ≠ .capture name) (slots : List (Option Tree)) (t : Tree)
    (s : TreeBindings) :
    m.treeMatch direct (.node line label slots) t s =
      if m.isTransparent label slots then m.treeMatchOnly slots t s
      else if label.same (m.seenTree t).label ∧ slots.length = (m.seenTree t).slots.length then
        m.treeMatchSlots slots (m.seenTree t).slots s
      else none := by
  cases label with
  | capture name => exact (hlabel name rfl).elim
  | _ => rw [treeMatch]; simp

mutual

/-- Matching in an arena is matching the tree there. -/
theorem matchTree_agrees (m : Matcher) : (p : Tree) → (direct : Bool) → (l : Placement) →
    (b : Bindings) → (s : TreeBindings) → a.Holds l → l.ids ⊆ ids → a.Bound ids b s →
    a.Agrees ids (m.matchTree a direct p l.root b) (m.treeMatch direct p l.tree s)
  | .node line label slots, direct, l, b, s, hl, hids, hb => by
    obtain ⟨k, hk, hsub, hseen, htree⟩ := m.seen_eq hl
    have hkids : k.ids ⊆ ids := List.Subset.trans (List.map_subset _ hsub) hids
    rcases label.capture_or with ⟨name, rfl⟩ | hlabel
    · rw [matchTree_capture, treeMatch_capture]
      cases direct with
      | true => exact bindCapture_agrees name hl (hids (root_mem_ids l)) hb
      | false =>
        simp only [Bool.false_eq_true, if_false, hseen, ok_bind, ← htree]
        exact bindCapture_agrees name hk (hkids (root_mem_ids k)) hb
    · rw [matchTree_node m direct line hlabel, treeMatch_node m direct line hlabel]
      by_cases htrans : m.isTransparent label slots = true
      · rw [if_pos htrans, if_pos htrans]
        exact matchOnly_agrees m slots l b s hl hids hb
      · rw [if_neg htrans, if_neg htrans]
        obtain ⟨c, hc, hfits, -, hclabel, hused⟩ := hk.cell
        have hcount := hfits.childCount_eq hused
        have hin : idsIn k.slots ⊆ k.ids := List.map_subset _ (by simp [entries_eq k])
        have hbelow := matchSlots_agrees m slots k.slots b s hk.below
          (List.Subset.trans hin hkids) hb
        simp only [hseen, ok_bind, Arena.cell, hc, look, Except.mapError, hclabel, hcount, hused,
          ← htree, tree_label, tree_slots, length_treesIn]
        by_cases hsame : label.same k.label = true ∧ slots.length = k.slots.length
        · rw [if_pos hsame, if_pos hsame]
          exact hbelow
        · rw [if_neg hsame, if_neg hsame]
          rfl

theorem matchOnly_agrees (m : Matcher) : (slots : List (Option Tree)) → (l : Placement) →
    (b : Bindings) → (s : TreeBindings) → a.Holds l → l.ids ⊆ ids → a.Bound ids b s →
    a.Agrees ids (m.matchOnly a slots l.root b) (m.treeMatchOnly slots l.tree s)
  | [some only], l, b, s, hl, hids, hb => matchTree_agrees m only false l b s hl hids hb
  | [], _, _, _, _, _, _ => rfl
  | [none], _, _, _, _, _, _ => rfl
  | some _ :: _ :: _, _, _, _, _, _, _ => rfl
  | none :: _ :: _, _, _, _, _, _, _ => rfl

theorem matchSlots_agrees (m : Matcher) : (ps : List (Option Tree)) →
    (ls : List (Option Placement)) → (b : Bindings) → (s : TreeBindings) → a.HoldsIn ls →
    idsIn ls ⊆ ids → a.Bound ids b s →
    a.Agrees ids (m.matchSlots a ps (idsOf ls) b) (m.treeMatchSlots ps (treesIn ls) s)
  | [], [], b, s, _, _, hb => ⟨b, rfl, hb⟩
  | [], none :: _, _, _, _, _, _ => rfl
  | [], some _ :: _, _, _, _, _, _ => rfl
  | none :: _, [], _, _, _, _, _ => rfl
  | none :: _, some _ :: _, _, _, _, _, _ => rfl
  | some _ :: _, [], _, _, _, _, _ => rfl
  | some _ :: _, none :: _, _, _, _, _, _ => rfl
  | none :: ps, none :: ls, b, s, hls, hids, hb =>
    matchSlots_agrees m ps ls b s hls.rest hids hb
  | some p :: ps, some l :: ls, b, s, hls, hids, hb => by
    have hfirst := matchTree_agrees m p true l b s (hls.holds List.mem_cons_self)
      (fun x hx => hids (mem_idsIn.mpr ⟨l, List.mem_cons_self, hx⟩)) hb
    simp only [idsOf_cons, Option.map_some, matchSlots, treesIn, treeMatchSlots]
    cases hs : m.treeMatch true p l.tree s with
    | none =>
      rw [hs] at hfirst
      rw [hfirst]
      rfl
    | some s' =>
      rw [hs] at hfirst
      obtain ⟨b', hb', hbound⟩ := hfirst
      rw [hb']
      -- what the first child has bound goes into the comparison of the others
      refine matchSlots_agrees m ps ls b' s' hls.rest (fun x hx => hids ?_) hbound
      obtain ⟨l', hl', hx⟩ := mem_idsIn.mp hx
      exact mem_idsIn.mpr ⟨l', List.mem_cons_of_mem _ hl', hx⟩

end

theorem run_of_some {m : Matcher} {p : Pattern} (hl : a.Holds l)
    (h : m.treeMatch true p.tree l.tree [] = some s) :
    ∃ b, m.run p a l.root = .ok (some b) ∧ a.Bound l.ids b s := by
  have hagrees := matchTree_agrees m p.tree true l [] [] hl (List.Subset.refl l.ids) .nil
  rw [h] at hagrees
  obtain ⟨b, hb, hbound⟩ := hagrees
  exact ⟨b, by simp [run, hb], hbound⟩

theorem run_of_none {m : Matcher} {p : Pattern} (hl : a.Holds l)
    (h : m.treeMatch true p.tree l.tree [] = none) : m.run p a l.root = .ok none := by
  have hagrees := matchTree_agrees m p.tree true l [] [] hl (List.Subset.refl l.ids) .nil
  rw [h] at hagrees
  have hmismatch : m.matchTree a true p.tree l.root [] = .error .mismatch := hagrees
  simp [run, hmismatch]

end Matcher

namespace RuleStore

variable {a : Arena} {l : Placement} {m : Matcher}

theorem firstAmong_of_some (hl : a.Holds l) {rules : List Rule} {id i : RuleId} {u : Template}
    {s : TreeBindings} (h : firstOn m l.tree id (rules.map Rule.sides) = some (i, u, s)) :
    ∃ r b, firstAmong m a l.root id rules = .ok (some (i, r, b)) ∧ r.template = u ∧
      a.Bound l.ids b s := by
  induction rules generalizing id with
  | nil => simp [firstOn] at h
  | cons r rest ih =>
      simp only [List.map_cons, Rule.sides, firstOn] at h
      cases hr : m.treeMatch true r.pattern.tree l.tree [] with
      | some s' =>
          simp only [hr, Option.some.injEq, Prod.mk.injEq] at h
          obtain ⟨rfl, rfl, rfl⟩ := h
          obtain ⟨b, hb, hbound⟩ := Matcher.run_of_some hl hr
          exact ⟨r, b, by simp [firstAmong, hb], rfl, hbound⟩
      | none =>
          simp only [hr] at h
          obtain ⟨r', b, hfirst, hu, hbound⟩ := ih h
          exact ⟨r', b, by simp [firstAmong, Matcher.run_of_none hl hr, hfirst], hu, hbound⟩

theorem firstAmong_of_none (hl : a.Holds l) {rules : List Rule} {id : RuleId}
    (h : firstOn m l.tree id (rules.map Rule.sides) = none) :
    firstAmong m a l.root id rules = .ok none := by
  induction rules generalizing id with
  | nil => rfl
  | cons r rest ih =>
      simp only [List.map_cons, Rule.sides, firstOn] at h
      cases hr : m.treeMatch true r.pattern.tree l.tree [] with
      | some s' => simp [hr] at h
      | none =>
          simp only [hr] at h
          simp [firstAmong, Matcher.run_of_none hl hr, ih h]

theorem length_sides (s : RuleStore) : s.sides.length = s.size := by
  simp [sides, size]

@[simp] theorem sides_recordHit (s : RuleStore) (id : RuleId) : (s.recordHit id).sides = s.sides := by
  simp only [sides, recordHit]
  refine List.ext_getElem? fun i => ?_
  simp only [List.getElem?_map, List.getElem?_modify]
  cases s.rules[i]? with
  | none => rfl
  | some r => by_cases h : id = i <;> simp [h, Rule.sides]

end RuleStore

end SnippetRewrite
