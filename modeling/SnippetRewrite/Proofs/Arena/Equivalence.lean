import SnippetRewrite.Proofs.Arena.Unfolding

/-!
Structural equality of subtrees, in one arena or two, as a relation. What it looks at is said by
paths: from both nodes the same paths of child slots have to lead to nodes, with equal labels and
with children in the same slots. Lines, the numbers of the slots and the slots that a kind does not
use are not looked at. Main statement: comparing two subtrees always comes to an answer, and the
answers are those of a symmetric and transitive relation, which is reflexive on exactly the subtrees
without a NaN.
-/

namespace SnippetRewrite

/-- What a comparison looks at in a node: its label, and which of the child slots in use hold a
child. -/
structure Face where
  label : Label
  -- no path leads into an empty slot, so paths alone would not show how many there are
  filled : List Bool

namespace Face

variable {f g h : Face}

/-- Two nodes look the same, apart from what lies below them. -/
structure Same (f g : Face) : Prop where
  label : f.label.same g.label = true
  filled : f.filled = g.filled

theorem same_self_iff : f.Same f ↔ f.label.hasNan = false := by
  constructor
  · intro hf
    simpa [Label.same_self] using hf.label
  · intro hnan
    exact ⟨by simp [Label.same_self, hnan], rfl⟩

theorem Same.symm (hfg : f.Same g) : g.Same f :=
  ⟨by rw [Label.same_comm, hfg.label], hfg.filled.symm⟩

theorem Same.trans (hfg : f.Same g) (hgh : g.Same h) : f.Same h :=
  ⟨Label.same_trans hfg.label hgh.label, hfg.filled.trans hgh.filled⟩

/-- Two places look the same if there is no node in either, or nodes that do. -/
abbrev Match : Option Face → Option Face → Prop :=
  Option.Rel Same

variable {o p q : Option Face}

theorem match_self_iff : Match o o ↔ ∀ f, o = some f → f.label.hasNan = false := by
  cases o <;> simp [Match, same_self_iff]

theorem match_symm (hop : Match o p) : Match p o := by
  cases hop with
  | some hfg => exact .some hfg.symm
  | none => exact .none

theorem match_trans (hop : Match o p) (hpq : Match p q) : Match o q := by
  cases hop with
  | some hfg =>
      cases hpq with
      | some hgh => exact .some (hfg.trans hgh)
  | none => exact hpq

end Face

/-! ### Trees by paths -/

namespace Tree

variable {t u : Tree}

def face (t : Tree) : Face :=
  ⟨t.label, t.slots.map Option.isSome⟩

def faceAt : Tree → List Nat → Option Face
  | t, [] => some t.face
  | t, index :: path => t.slots[index]?.join.bind fun child => child.faceAt path

/-- Child slots in which the children that stand in the same place are equal. -/
def SameChildren (xs ys : List (Option Tree)) : Prop :=
  ∀ (i : Nat) (t u : Tree), xs[i]? = some (some t) → ys[i]? = some (some u) → t.same u = true

theorem sameChildren_cons {o p : Option Tree} {xs ys : List (Option Tree)} :
    SameChildren (o :: xs) (p :: ys) ↔
      (∀ t u, o = some t → p = some u → t.same u = true) ∧ SameChildren xs ys := by
  constructor
  · intro h
    exact ⟨fun t u ht hu => h 0 t u (congrArg some ht) (congrArg some hu), fun i => h (i + 1)⟩
  · rintro ⟨hfirst, hrest⟩ i t u ht hu
    cases i with
    | zero => exact hfirst t u (Option.some.inj ht) (Option.some.inj hu)
    | succ i => exact hrest i t u ht hu

theorem sameSlots_iff_filled {xs ys : List (Option Tree)} :
    sameSlots xs ys = true ↔ xs.map Option.isSome = ys.map Option.isSome ∧ SameChildren xs ys := by
  induction xs generalizing ys with
  | nil => rcases ys with _ | ⟨_ | u, ys⟩ <;> simp [sameSlots, SameChildren]
  | cons o xs ih =>
      rcases ys with _ | ⟨p, ys⟩
      · cases o <;> simp [sameSlots]
      · cases o <;> cases p <;> simp [sameSlots, ih, sameChildren_cons, and_left_comm]

theorem same_iff : t.same u = true ↔ t.face.Same u.face ∧ SameChildren t.slots u.slots := by
  obtain ⟨m, a, xs⟩ := t
  obtain ⟨n, b, ys⟩ := u
  rw [same, Bool.and_eq_true, sameSlots_iff_filled, ← and_assoc]
  exact and_congr_left' ⟨fun h => ⟨h.1, h.2⟩, fun h => ⟨h.label, h.filled⟩⟩

/-- Trees are equal exactly if the same paths lead down in both and what they lead to looks the
same. -/
theorem same_iff_faceAt :
    t.same u = true ↔ ∀ path, Face.Match (t.faceAt path) (u.faceAt path) := by
  constructor
  · intro h path
    induction path generalizing t u with
    | nil => exact .some (same_iff.mp h).1
    | cons index path ih =>
        obtain ⟨hface, hbelow⟩ := same_iff.mp h
        have hfilled := congrArg (·[index]?) hface.filled
        simp only [face, List.getElem?_map] at hfilled
        rw [faceAt, faceAt]
        -- a slot is missing, empty or filled in both trees; only a filled one leads further
        rcases hx : t.slots[index]? with _ | _ | x <;> rcases hy : u.slots[index]? with _ | _ | y <;>
          simp [hx, hy] at hfilled ⊢
        exact ih (hbelow index x y hx hy)
  · intro h
    induction t using Tree.induct generalizing u with
    | node line label slots ih =>
        -- a path below a child is one below its parent with an index in front
        refine same_iff.mpr ⟨Option.rel_some_some.mp (h []), fun index x y hx hy => ?_⟩
        refine ih x (List.mem_of_getElem? hx) fun path => ?_
        simpa [faceAt, hx, hy] using h (index :: path)

end Tree

/-! ### Arenas by paths -/

def Cell.face (c : Cell) : Face :=
  ⟨c.label, c.used.map Option.isSome⟩

namespace Arena

open Placement

variable {a b : Arena} {l : Placement}

def faceAt (a : Arena) (id : NodeId) (path : List Nat) : Option Face :=
  ((a.follow id path).bind a.cell?).map Cell.face

theorem Holds.faceAt_cons_eq_none {index : Nat} (h : a.Holds l)
    (hslot : ∀ m, l.slots[index]? ≠ some (some m)) (path : List Nat) :
    a.faceAt l.root (index :: path) = none := by
  have hpath : a.follow l.root (index :: path) = none := by
    refine Option.eq_none_iff_forall_ne_some.mpr fun id hid => ?_
    obtain ⟨m, hm, -⟩ := exists_of_follow_cons h hid
    exact hslot m hm
  simp [faceAt, hpath]

theorem Holds.faceAt_eq (h : a.Holds l) (path : List Nat) :
    a.faceAt l.root path = l.tree.faceAt path := by
  induction path generalizing l with
  | nil =>
      obtain ⟨c, hc, -, -, hlabel, hused⟩ := h.cell
      have hfilled : (idsOf l.slots).map Option.isSome = (treesIn l.slots).map Option.isSome := by
        simp [idsOf, treesIn_eq_map, Function.comp_def]
      simp [faceAt, follow, hc, Cell.face, Tree.faceAt, Tree.face, hlabel, hused, hfilled]
  | cons index path ih =>
      rw [Tree.faceAt, tree_slots, treesIn_eq_map, List.getElem?_map]
      rcases hslot : l.slots[index]? with _ | _ | m
      · exact h.faceAt_cons_eq_none (by simp [hslot]) path
      · exact h.faceAt_cons_eq_none (by simp [hslot]) path
      · rw [faceAt, follow_cons h hslot]
        exact ih (h.below.holds (List.mem_of_getElem? hslot))

/-- The second arena has the nodes below a node as well, renumbered: `move` says in which slots they
lie. Their lines may differ, and so may what there is in child slots that are not in use. -/
def Renumbers (b : Arena) (move : NodeId → NodeId) (a : Arena) (id : NodeId) : Prop :=
  ∀ path x, a.follow id path = some x →
    (b.cell? (move x)).map (fun d => (d.label, d.used)) =
      (a.cell? x).map fun c => (c.label, c.used.map (Option.map move))

variable {move : NodeId → NodeId} {id : NodeId}

theorem Renumbers.child? (h : b.Renumbers move a id) (index : Nat) :
    (b.cell? (move id)).bind (·.child? index) = ((a.cell? id).bind (·.child? index)).map move := by
  have hcell := congrArg (Option.bind · fun p => p.2[index]?.join) (h [] id rfl)
  simpa [Option.bind_map, Option.map_bind, Function.comp_def, Option.join_map_eq_map_join,
    Cell.child?] using hcell

theorem Renumbers.follow_eq (h : b.Renumbers move a id) (path : List Nat) :
    b.follow (move id) path = (a.follow id path).map move := by
  induction path generalizing id with
  | nil => rfl
  | cons index path ih =>
      rw [follow, follow, h.child? index]
      cases hchild : (a.cell? id).bind (·.child? index) with
      | none => rfl
      | some child =>
          refine ih fun rest x hx => h (index :: rest) x ?_
          rw [follow, hchild]
          exact hx

theorem Renumbers.faceAt_eq (h : b.Renumbers move a id) :
    b.faceAt (move id) = a.faceAt id := by
  funext path
  rw [faceAt, faceAt, h.follow_eq]
  cases hpath : a.follow id path with
  | none => rfl
  | some x =>
      have hcell := congrArg (Option.map fun p => Face.mk p.1 (p.2.map Option.isSome))
        (h path x hpath)
      simp only [Option.map_map, Function.comp_def, List.map_map, Option.isSome_map] at hcell
      exact hcell

end Arena

/-! ### Subtrees -/

/-- A node of an arena with all that lies below it: no child slot on the way down dangles, and no
node lies below itself. -/
structure Subtree where
  arena : Arena
  id : NodeId
  fits : arena.Fits
  unfolds : arena.Unfolds id

namespace Subtree

variable {s t u : Subtree}

def ofRead (arena : Arena) (id : NodeId) (hread : (arena.tree id).isOk = true)
    (hfits : ∀ x < arena.cells.size, (arena.cell? x).all fun c => c.childCount ≤ c.slots.length) :
    Subtree :=
  have hfits' : arena.Fits := fun x c hc => by
    have hx := hfits x (Arena.lt_size_of_cell? hc)
    rwa [hc, Option.all_some, decide_eq_true_iff] at hx
  have hunfolds : arena.Unfolds id := by
    cases ht : arena.tree id with
    | error e => simp [ht, Except.isOk, Except.toBool] at hread
    | ok t => exact Arena.unfolds_of_tree hfits' ht
  ⟨arena, id, hfits', hunfolds⟩

def same (s t : Subtree) : Except Fault Bool :=
  s.arena.same s.id t.arena t.id

/-- What a comparison looks at: the faces at the ends of the paths down. -/
def faceAt (s : Subtree) : List Nat → Option Face :=
  s.arena.faceAt s.id

/-- Whether some node has a value that is a NaN or an array with a NaN somewhere in it. -/
def HasNan (s : Subtree) : Prop :=
  ∃ path face, s.faceAt path = some face ∧ face.label.hasNan = true

/-- The same paths lead down from both nodes, and what they lead to looks the same. -/
def Agrees (s t : Subtree) : Prop :=
  ∀ path, Face.Match (s.faceAt path) (t.faceAt path)

theorem Agrees.symm (h : s.Agrees t) : t.Agrees s :=
  fun path => Face.match_symm (h path)

theorem Agrees.trans (h : s.Agrees t) (h' : t.Agrees u) : s.Agrees u :=
  fun path => Face.match_trans (h path) (h' path)

theorem agrees_self_iff : s.Agrees s ↔ ¬ s.HasNan := by
  simp only [Agrees, Face.match_self_iff, HasNan, not_exists, not_and, Bool.not_eq_true]

/-- A comparison ends with an answer, which says whether the subtrees agree. -/
theorem exists_same (s t : Subtree) :
    ∃ answer, s.same t = .ok answer ∧ (answer = true ↔ s.Agrees t) := by
  obtain ⟨l, hl, hs⟩ := (Arena.unfolds_iff s.fits).mp s.unfolds
  obtain ⟨m, hm, ht⟩ := (Arena.unfolds_iff t.fits).mp t.unfolds
  refine ⟨l.tree.same m.tree, ?_, ?_⟩
  · rw [same, ← hs, ← ht, hl.same_eq hm]
  · rw [Tree.same_iff_faceAt]
    refine forall_congr' fun path => ?_
    rw [faceAt, faceAt, ← hs, ← ht, hl.faceAt_eq, hm.faceAt_eq]

theorem same_eq_true_iff : s.same t = .ok true ↔ s.Agrees t := by
  obtain ⟨answer, hsame, hiff⟩ := exists_same s t
  rw [hsame, ← hiff, Except.ok.injEq]

/-- Comparisons of subtrees that agree under the same conditions have the same answer. -/
theorem same_congr {s' t' : Subtree} (h : s.Agrees t ↔ s'.Agrees t') : s.same t = s'.same t' := by
  obtain ⟨answer, hsame, hiff⟩ := exists_same s t
  obtain ⟨answer', hsame', hiff'⟩ := exists_same s' t'
  rw [hsame, hsame', Bool.eq_iff_iff.mpr (hiff.trans (h.trans hiff'.symm))]

theorem same_comm (s t : Subtree) : s.same t = t.same s :=
  same_congr ⟨Agrees.symm, Agrees.symm⟩

theorem same_of_faceAt_eq (h : s.faceAt = t.faceAt) (u : Subtree) :
    s.same u = t.same u ∧ u.same s = u.same t := by
  have hleft : s.same u = t.same u := same_congr (by rw [Agrees, Agrees, h])
  exact ⟨hleft, by rw [same_comm u s, same_comm u t, hleft]⟩

/-- Structural equality is symmetric and transitive across arenas, with an answer for every two
subtrees. It is reflexive on exactly the subtrees without a NaN. It depends on nothing but what lies
at the ends of the paths down, so the lines, the numbers of the slots and what there is in unused
child slots make no difference. -/
theorem same_equivalence (s t u : Subtree) :
    (∃ answer, s.same t = .ok answer ∧ t.same s = .ok answer) ∧
    (s.same t = .ok true → t.same u = .ok true → s.same u = .ok true) ∧
    (s.same s = .ok true ↔ ¬ s.HasNan) ∧
    (s.faceAt = t.faceAt → s.same u = t.same u ∧ u.same s = u.same t) ∧
    ∀ move, t.id = move s.id → t.arena.Renumbers move s.arena s.id →
      s.same u = t.same u ∧ u.same s = u.same t := by
  refine ⟨?_, fun hst htu => ?_, same_eq_true_iff.trans agrees_self_iff,
    fun hfaces => same_of_faceAt_eq hfaces u, fun move hid hmove => ?_⟩
  · obtain ⟨answer, hsame, -⟩ := exists_same s t
    exact ⟨answer, hsame, (same_comm t s).trans hsame⟩
  · rw [same_eq_true_iff] at hst htu ⊢
    exact hst.trans htu
  · have hfaces : s.faceAt = t.faceAt := by
      rw [faceAt, faceAt, hid, hmove.faceAt_eq]
    exact same_of_faceAt_eq hfaces u

def firstUnit : Arena where
  origin := "first"
  cells := #[
    some ⟨1, .ofName "f", []⟩,
    some ⟨1, .leaf .literal (.float .zero), []⟩,
    some ⟨1, .list .argList, [some 1]⟩,
    some ⟨1, .fixed .call, [some 0, some 2, none, none]⟩]
  free := []
  root := some 3

/-- The same call on other lines and in other slots, with a number of no node in an unused child
slot; the call `f(-0.0)` with the same node for its name; and a literal with a NaN two arrays deep. -/
def secondUnit : Arena where
  origin := "second"
  cells := #[
    some ⟨8, .fixed .call, [some 4, some 3, some 11, none]⟩,
    some ⟨6, .leaf .literal (.array [.int 1, .array [.float .nan]]), []⟩,
    some ⟨8, .leaf .literal (.float .zero), []⟩,
    some ⟨9, .list .argList, [some 2]⟩,
    some ⟨7, .ofName "f", []⟩,
    some ⟨7, .leaf .literal (.float (.finite true 0 Double.minExponent)), []⟩,
    some ⟨7, .list .argList, [some 5]⟩,
    some ⟨7, .fixed .call, [some 4, some 6, none, none]⟩]
  free := []
  root := some 0

def zeroCall : Subtree :=
  .ofRead firstUnit 3 (by decide +kernel) (by decide +kernel)

def movedCall : Subtree :=
  .ofRead secondUnit 0 (by decide +kernel) (by decide +kernel)

def negativeCall : Subtree :=
  .ofRead secondUnit 7 (by decide +kernel) (by decide +kernel)

def nestedNan : Subtree :=
  .ofRead secondUnit 1 (by decide +kernel) (by decide +kernel)

/-- In which slots of the second unit the nodes of the first call lie. -/
def movedTo (id : NodeId) : NodeId :=
  [4, 2, 3, 0].getD id 0

theorem movedCall_renumbers : movedCall.arena.Renumbers movedTo zeroCall.arena zeroCall.id := by
  intro path x hpath
  obtain ⟨c, hc⟩ := Arena.contains_iff.mp (zeroCall.unfolds.live path x hpath)
  have hall : ∀ x < firstUnit.cells.size,
      (secondUnit.cell? (movedTo x)).map (fun d => (d.label, d.used)) =
        (firstUnit.cell? x).map fun c => (c.label, c.used.map (Option.map movedTo)) := by
    decide +kernel
  exact hall x (Arena.lt_size_of_cell? hc)

theorem same_equivalence_calls :
    zeroCall.faceAt = movedCall.faceAt ∧ zeroCall.same movedCall = .ok true ∧
    movedCall.same zeroCall = .ok true ∧
    movedCall.same negativeCall = .ok true ∧ zeroCall.same negativeCall = .ok true ∧
    zeroCall.same nestedNan = movedCall.same nestedNan ∧
    nestedNan.same zeroCall = nestedNan.same movedCall ∧
    ¬ zeroCall.HasNan ∧ nestedNan.HasNan ∧ nestedNan.same nestedNan ≠ .ok true := by
  have hmoved : zeroCall.same movedCall = .ok true := by decide +kernel
  have hnegative : movedCall.same negativeCall = .ok true := by decide +kernel
  have hnan : nestedNan.HasNan := ⟨[], _, rfl, by decide +kernel⟩
  have hfaces : zeroCall.faceAt = movedCall.faceAt := movedCall_renumbers.faceAt_eq.symm
  obtain ⟨⟨answer, hanswer, hback⟩, htrans, -⟩ := same_equivalence zeroCall movedCall negativeCall
  cases hmoved.symm.trans hanswer
  obtain ⟨-, -, hself, hcongr, hmove⟩ := same_equivalence zeroCall movedCall nestedNan
  obtain ⟨-, -, hnanSelf, -⟩ := same_equivalence nestedNan nestedNan nestedNan
  refine ⟨hfaces, hmoved, hback, hnegative, htrans hmoved hnegative,
    (hcongr hfaces).1, (hmove movedTo rfl movedCall_renumbers).2, hself.mp (by decide +kernel),
    hnan, ?_⟩
  exact fun hsame => hnanSelf.mp hsame hnan

end Subtree

end SnippetRewrite
