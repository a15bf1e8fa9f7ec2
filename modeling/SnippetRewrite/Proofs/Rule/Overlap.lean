import Mathlib.Data.List.Forall2
import SnippetRewrite.Proofs.Rule.Compiled

/-!
Where patterns may match in what templates build. Whether a pattern overlaps a template is read off
the two trees: capture points stand for anything, lists with one statement may be transparent, and
all other nodes are compared. If a pattern matches an instance of a template, the two overlap; the
converse need not hold.
-/

namespace SnippetRewrite

namespace Tree

/-- Whether a node may stand for another one: capture points, and lists that may be transparent. -/
def isOpen : Tree → Bool
  | .node _ (.capture _) _ => true
  | .node _ label slots => label.isStmtList && slots.length == 1

mutual

/-- Whether a pattern may match an instance of a template. -/
def overlaps : Tree → Tree → Bool
  | .node line label slots, u =>
    (node line label slots).isOpen || u.isOpen || (label.same u.label && overlapsIn slots u.slots)

def overlapsIn : List (Option Tree) → List (Option Tree) → Bool
  | [], [] => true
  | none :: ps, none :: us => overlapsIn ps us
  | some p :: ps, some u :: us => overlaps p u && overlapsIn ps us
  | _, _ => false

end

variable {t u v : Tree} {line line' : Nat} {label : Label} {slots us vs : List (Option Tree)}
  {s : TreeBindings}

theorem isOpen_node (hcapture : ∀ name, label ≠ .capture name) :
    (node line label slots).isOpen = (label.isStmtList && slots.length == 1) := by
  cases label with
  | capture name => exact (hcapture name rfl).elim
  | _ => rfl

theorem not_capture_of_isOpen (h : (node line label slots).isOpen = false) (name : String) :
    label ≠ .capture name := by
  rintro rfl
  cases h

theorem unwrapSingle_of_isOpen (h : t.isOpen = false) : t.unwrapSingle = t := by
  refine unwrapSingle.eq_2 t ?_
  rintro line only rfl
  cases h

/-! ### Instances node by node -/

/-- Instances of child slots: they are filled where the slots are. -/
def SlotInstances (s : TreeBindings) (line : Nat) : List (Option Tree) → List (Option Tree) → Prop :=
  List.Forall₂ (Option.Rel fun u v => u.instantiate s line = .ok v)

theorem slotInstances_of_ok (h : instantiateSlots s line us = .ok vs) :
    SlotInstances s line us vs := by
  induction us generalizing vs with
  | nil =>
      cases h
      exact .nil
  | cons o us ih =>
      cases o with
      | none =>
          obtain ⟨ws, hws, h⟩ := bind_eq_ok.mp h
          cases h
          exact .cons .none (ih hws)
      | some u =>
          obtain ⟨v, hv, h⟩ := bind_eq_ok.mp h
          obtain ⟨ws, hws, h⟩ := bind_eq_ok.mp h
          cases h
          exact .cons (.some hv) (ih hws)

/-- An instance has the nodes of the template around the bound trees. -/
theorem exists_slots_of_instance (hcapture : ∀ name, label ≠ .capture name)
    (hshape : (node line' label slots).hasShape = true)
    (h : (node line' label slots).instantiate s line = .ok v) :
    ∃ vs, SlotInstances s line slots vs ∧ v = node line label vs := by
  rcases instance_cases h with ⟨name, rfl, -⟩ | ⟨kind, value, rfl, rfl⟩ | ⟨-, vs, hvs, rfl⟩
  · exact (hcapture name rfl).elim
  · have hempty : slots = [] :=
      List.eq_nil_of_length_eq_zero ((hasShape_node.mp hshape).2 0 rfl)
    exact ⟨[], by rw [hempty]; exact .nil, rfl⟩
  · exact ⟨vs, slotInstances_of_ok hvs, rfl⟩

theorem SlotInstances.exists_of_mem (h : SlotInstances s line us vs) (hv : some v ∈ vs) :
    ∃ u, some u ∈ us ∧ u.instantiate s line = .ok v := by
  induction h with
  | nil => cases hv
  | @cons o w us vs ho _ ih =>
      rcases List.mem_cons.mp hv with rfl | hv
      · cases ho with
        | some hu => exact ⟨_, List.mem_cons_self, hu⟩
      · obtain ⟨u, hu, hinstance⟩ := ih hv
        exact ⟨u, List.mem_cons_of_mem _ hu, hinstance⟩

/-! ### Properties that go down -/

def Hereditary (P : Tree → Prop) : Prop :=
  ∀ line label slots, P (node line label slots) → ∀ t, some t ∈ slots → P t

variable {P : Tree → Prop}

theorem Hereditary.below (hP : Hereditary P) (ht : P t) : ∀ u, some u ∈ t.slots → P u := by
  cases t with
  | node line label slots => exact hP line label slots ht

theorem Hereditary.unwrapSingle (hP : Hereditary P) (ht : P t) : P t.unwrapSingle := by
  induction t using unwrapSingle.induct with
  | case1 line only ih => exact ih (hP _ _ _ ht only List.mem_cons_self)
  | case2 t hne => rwa [unwrapSingle.eq_2 t hne]

end Tree

namespace Matcher

open SnippetRewrite.Tree

variable {m : Matcher} {p t u v : Tree} {b c : TreeBindings} {direct : Bool} {line line' : Nat}
  {label : Label} {slots : List (Option Tree)} {s : TreeBindings}

theorem isTransparent_of_isOpen (h : (node line label slots).isOpen = false) :
    m.isTransparent label slots = false := by
  rw [isOpen_node (not_capture_of_isOpen h)] at h
  unfold isTransparent
  split
  · simp_all
  · simp

theorem seenTree_of_isOpen (h : t.isOpen = false) : m.seenTree t = t := by
  rw [seenTree, unwrapSingle_of_isOpen h, ite_self]

/-- What is seen is the tree itself, or what is seen of the only statement of a list. -/
theorem seenTree_or (m : Matcher) (t : Tree) : m.seenTree t = t ∨
    ∃ line only, t = node line (.list .stmtList) [some only] ∧ m.seenTree t = m.seenTree only := by
  unfold seenTree
  cases m.unwrapSingle with
  | false => exact .inl rfl
  | true =>
      induction t using unwrapSingle.induct with
      | case1 line only => exact .inr ⟨line, only, rfl, rfl⟩
      | case2 t hne => exact .inl (Tree.unwrapSingle.eq_2 t hne)

/-- A pattern that stands for itself is compared with the node that is seen, and slot by slot. -/
theorem treeMatch_of_isOpen (h : (node line label slots).isOpen = false) :
    m.treeMatch direct (node line label slots) t b =
      if label.same (m.seenTree t).label ∧ slots.length = (m.seenTree t).slots.length then
        m.treeMatchSlots slots (m.seenTree t).slots b
      else none := by
  rw [treeMatch_node m direct line (not_capture_of_isOpen h), isTransparent_of_isOpen h,
    if_neg Bool.false_ne_true]

mutual

/-- A pattern that matches an instance of a template overlaps the template. -/
theorem overlaps_of_treeMatch (m : Matcher) : (p u : Tree) → (direct : Bool) → (v : Tree) →
    (b c : TreeBindings) → u.hasShape = true → u.instantiate s line = .ok v →
    m.treeMatch direct p v b = some c → p.overlaps u = true
  | .node pline label slots, .node uline ulabel us, direct, v, b, c, hshape, hv, h => by
    cases hp : (node pline label slots).isOpen with
    | true => rw [overlaps, hp, Bool.true_or, Bool.true_or]
    | false =>
      cases hu : (node uline ulabel us).isOpen with
      | true => rw [overlaps, hu, Bool.or_true, Bool.true_or]
      | false =>
        obtain ⟨vs, hfill, rfl⟩ := exists_slots_of_instance (not_capture_of_isOpen hu) hshape hv
        have hopen : (node line ulabel vs).isOpen = false := by
          have hcapture := not_capture_of_isOpen hu
          rw [isOpen_node hcapture] at hu ⊢
          rwa [← hfill.length_eq]
        rw [treeMatch_of_isOpen hp, seenTree_of_isOpen hopen] at h
        split at h
        · rename_i hsame
          have hslots := overlapsIn_of_treeMatchSlots m slots us vs b c (hasShape_node.mp hshape).1
            hfill h
          have hlabel : label.same ulabel = true := hsame.1
          simp only [overlaps, Tree.label, Tree.slots, hlabel, hslots, Bool.and_self, Bool.or_true]
        · cases h

theorem overlapsIn_of_treeMatchSlots (m : Matcher) : (ps us vs : List (Option Tree)) →
    (b c : TreeBindings) → (∀ u, some u ∈ us → u.hasShape = true) →
    SlotInstances s line us vs → m.treeMatchSlots ps vs b = some c → overlapsIn ps us = true
  | [], [], [], _, _, _, .nil, _ => rfl
  | none :: ps, none :: us, none :: vs, b, c, hshape, .cons .none hvs, h =>
    overlapsIn_of_treeMatchSlots m ps us vs b c (fun u hu => hshape u (List.mem_cons_of_mem _ hu))
      hvs h
  | some p :: ps, some u :: us, some v :: vs, b, c, hshape, .cons (.some hv) hvs, h => by
    obtain ⟨d, hd, h⟩ := Option.bind_eq_some_iff.mp h
    have hfirst := overlaps_of_treeMatch m p u true v b d (hshape u List.mem_cons_self) hv hd
    have hrest := overlapsIn_of_treeMatchSlots m ps us vs d c
      (fun u hu => hshape u (List.mem_cons_of_mem _ hu)) hvs h
    rw [overlapsIn, hfirst, hrest]
    rfl
  | [], _ :: _, _ :: _, _, _, _, .cons _ _, h => nomatch h
  | none :: _, [], [], _, _, _, .nil, h => nomatch h
  | some _ :: _, [], [], _, _, _, .nil, h => nomatch h
  | none :: _, some _ :: _, some _ :: _, _, _, _, .cons (.some _) _, h => nomatch h
  | some _ :: _, none :: _, none :: _, _, _, _, .cons .none _, h => nomatch h

end

/-! ### Bound trees -/

variable {P : Tree → Prop}

theorem seenTree_forall (hP : Hereditary P) (ht : P t) : P (m.seenTree t) := by
  unfold seenTree
  split
  · exact hP.unwrapSingle ht
  · exact ht

theorem bindTree_forall {name : String} (ht : P t) (hb : ∀ x ∈ b, P x.2)
    (h : bindTree b name t = some c) : ∀ x ∈ c, P x.2 := by
  unfold bindTree at h
  split at h
  · cases h
    intro x hx
    rcases List.mem_append.mp hx with hx | hx
    · exact hb x hx
    · rw [List.mem_singleton.mp hx]
      exact ht
  · split at h
    · cases h
      exact hb
    · cases h

mutual

/-- A match binds subtrees of the tree: what holds of the tree and of the children of all nodes it
holds of, holds of what is bound. -/
theorem treeMatch_forall (hP : Hereditary P) (m : Matcher) (direct : Bool) : (p t : Tree) →
    (b c : TreeBindings) → P t → (∀ x ∈ b, P x.2) → m.treeMatch direct p t b = some c →
    ∀ x ∈ c, P x.2
  | .node line label slots, t, b, c, ht, hb, h => by
    rcases label.capture_or with ⟨name, rfl⟩ | hlabel
    · rw [treeMatch_capture] at h
      refine bindTree_forall ?_ hb h
      cases direct with
      | true => exact ht
      | false => exact seenTree_forall hP ht
    · rw [treeMatch_node m direct line hlabel] at h
      split at h
      · exact treeMatchOnly_forall hP m slots t b c ht hb h
      · split at h
        · exact treeMatchSlots_forall hP m slots _ b c (hP.below (seenTree_forall hP ht)) hb h
        · cases h

theorem treeMatchOnly_forall (hP : Hereditary P) (m : Matcher) : (slots : List (Option Tree)) → (t : Tree) →
    (b c : TreeBindings) → P t → (∀ x ∈ b, P x.2) → m.treeMatchOnly slots t b = some c →
    ∀ x ∈ c, P x.2
  | [some only], t, b, c, ht, hb, h => treeMatch_forall hP m false only t b c ht hb h
  | [], _, _, _, _, _, h => nomatch h
  | [none], _, _, _, _, _, h => nomatch h
  | some _ :: _ :: _, _, _, _, _, _, h => nomatch h
  | none :: _ :: _, _, _, _, _, _, h => nomatch h

theorem treeMatchSlots_forall (hP : Hereditary P) (m : Matcher) : (ps ts : List (Option Tree)) →
    (b c : TreeBindings) → (∀ t, some t ∈ ts → P t) → (∀ x ∈ b, P x.2) →
    m.treeMatchSlots ps ts b = some c → ∀ x ∈ c, P x.2
  | [], [], _, _, _, hb, h => by
    cases h
    exact hb
  | none :: ps, none :: ts, b, c, ht, hb, h =>
    treeMatchSlots_forall hP m ps ts b c (fun t hmem => ht t (List.mem_cons_of_mem _ hmem)) hb h
  | some p :: ps, some t :: ts, b, c, ht, hb, h => by
    obtain ⟨d, hd, h⟩ := Option.bind_eq_some_iff.mp h
    have hfirst := treeMatch_forall hP m true p t b d (ht t List.mem_cons_self) hb hd
    exact treeMatchSlots_forall hP m ps ts d c (fun t hmem => ht t (List.mem_cons_of_mem _ hmem))
      hfirst h
  | [], _ :: _, _, _, _, _, h => nomatch h
  | none :: _, [], _, _, _, _, h => nomatch h
  | some _ :: _, [], _, _, _, _, h => nomatch h
  | none :: _, some _ :: _, _, _, _, _, h => nomatch h
  | some _ :: _, none :: _, _, _, _, _, h => nomatch h

end

end Matcher

/-! ### Rules that feed each other -/

namespace RuleStore

/-- No pattern overlaps the tree. -/
def spares (sides : List (Pattern × Template)) (u : Tree) : Bool :=
  sides.all fun side => !side.1.tree.overlaps u

mutual

/-- No pattern overlaps a node of the tree, capture points left out. -/
def sparesAll (sides : List (Pattern × Template)) : Tree → Bool
  | .node _ (.capture _) _ => true
  | .node line label slots => spares sides (.node line label slots) && sparesBelow sides slots

def sparesBelow (sides : List (Pattern × Template)) : List (Option Tree) → Bool
  | [] => true
  | none :: rest => sparesBelow sides rest
  | some u :: rest => sparesAll sides u && sparesBelow sides rest

end

/-- At an instance of the template at most so many rules apply one after the other, and none below
its root. -/
def settlesWithin (sides : List (Pattern × Template)) : Nat → Tree → Bool
  | 0, u => sparesAll sides u
  | n + 1, u =>
    sparesAll sides u || (sparesBelow sides u.slots &&
      sides.all fun side => !side.1.tree.overlaps u || settlesWithin sides n side.2.tree)

variable {sides : List (Pattern × Template)} {line n : Nat} {label : Label} {u : Tree}
  {slots : List (Option Tree)}

theorem sparesAll_node (hcapture : ∀ name, label ≠ .capture name) :
    sparesAll sides (.node line label slots) =
      (spares sides (.node line label slots) && sparesBelow sides slots) := by
  cases label with
  | capture name => exact (hcapture name rfl).elim
  | _ => rw [sparesAll]; simp

theorem sparesAll_of_mem (h : sparesBelow sides slots = true) (hu : some u ∈ slots) :
    sparesAll sides u = true := by
  induction slots with
  | nil => cases hu
  | cons o rest ih =>
      cases o with
      | none => exact ih h (by simpa using hu)
      | some v =>
          obtain ⟨hv, hrest⟩ := (Bool.and_eq_true _ _).mp h
          rcases List.mem_cons.mp hu with heq | hu
          · cases heq
            exact hv
          · exact ih hrest hu

theorem not_overlaps_of_spares (h : spares sides u = true) {side : Pattern × Template}
    (hside : side ∈ sides) : side.1.tree.overlaps u = false := by
  simpa using List.all_eq_true.mp h side hside

/-- What a template that settles is like if its root is no capture point. -/
theorem settlesWithin_node (hcapture : ∀ name, label ≠ .capture name)
    (h : settlesWithin sides n (.node line label slots) = true) :
    sparesBelow sides slots = true ∧ ∀ side ∈ sides,
      side.1.tree.overlaps (.node line label slots) = true →
        ∃ k, n = k + 1 ∧ settlesWithin sides k side.2.tree = true := by
  have hall (hspares : sparesAll sides (.node line label slots) = true) :
      sparesBelow sides slots = true ∧ ∀ side ∈ sides,
        side.1.tree.overlaps (.node line label slots) = true →
          ∃ k, n = k + 1 ∧ settlesWithin sides k side.2.tree = true := by
    rw [sparesAll_node hcapture, Bool.and_eq_true] at hspares
    refine ⟨hspares.2, fun side hside hoverlaps => ?_⟩
    rw [not_overlaps_of_spares hspares.1 hside] at hoverlaps
    cases hoverlaps
  cases n with
  | zero => exact hall h
  | succ n =>
      rw [settlesWithin, Bool.or_eq_true, Bool.and_eq_true, List.all_eq_true] at h
      rcases h with h | ⟨hbelow, hsides⟩
      · exact hall h
      · refine ⟨hbelow, fun side hside hoverlaps => ⟨n, rfl, ?_⟩⟩
        simpa [hoverlaps] using hsides side hside

end RuleStore

end SnippetRewrite
