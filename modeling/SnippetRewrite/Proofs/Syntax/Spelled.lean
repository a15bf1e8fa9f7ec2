import Mathlib.Data.List.Forall2
import SnippetRewrite.Proofs.Syntax.Equality
import SnippetRewrite.Proofs.Syntax.Shape

/-!
What the text of a program spells. An `else` belongs to the last `if` in front of it that has none,
and nothing in the text of a branch keeps it from there; and a list of captured variables is written
only if there are any. What is spelled is the program itself unless an `else` stands behind a branch
that takes it, or a list of captured variables is empty.
-/

namespace SnippetRewrite

namespace Tree

/-- Whether an `else` behind the text of a statement belongs to an `if` inside. -/
def takesElse : Tree → Bool
  | .node _ (.fixed .ifElse) [_, _, none] => true
  | .node _ (.fixed .ifElse) [_, _, some no] => takesElse no
  | .node _ (.fixed .whileLoop) [_, some body] => takesElse body
  | .node _ (.fixed .forLoop) [_, _, _, some body] => takesElse body
  | _ => false

/-- Gives an `else` to the statement that it stands behind. -/
def giveElse (last : Tree) : Tree → Tree
  | .node line (.fixed .ifElse) [condition, none, none] =>
    .fixed .ifElse [condition, none, some last] line
  | .node line (.fixed .ifElse) [condition, some yes, none] =>
    if yes.takesElse then .fixed .ifElse [condition, some (giveElse last yes), none] line
    else .fixed .ifElse [condition, some yes, some last] line
  | .node line (.fixed .ifElse) [condition, yes, some no] =>
    .fixed .ifElse [condition, yes, some (giveElse last no)] line
  | .node line (.fixed .whileLoop) [condition, some body] =>
    .fixed .whileLoop [condition, some (giveElse last body)] line
  | .node line (.fixed .forLoop) [start, condition, step, some body] =>
    .fixed .forLoop [start, condition, step, some (giveElse last body)] line
  | t => t

/-- What the text of a node spells if those of its children spell the slots. -/
def spell (line : Nat) (label : Label) (slots : List (Option Tree)) : Tree :=
  match label, slots with
  | .fixed .ifElse, [condition, some yes, some no] =>
    if yes.takesElse then .fixed .ifElse [condition, some (giveElse no yes), none] line
    else .fixed .ifElse [condition, some yes, some no] line
  | .decl kind name flags, [params, some uses, body, result] =>
    .node line (.decl kind name flags)
      [params, if uses.slots.isEmpty then none else some uses, body, result]
  | _, _ => .node line label slots

def spelled (t : Tree) : Tree :=
  t.fold spell

mutual

def anyNode (p : Label → List (Option Tree) → Bool) : Tree → Bool
  | node _ label slots => p label slots || anyNodeIn p slots

def anyNodeIn (p : Label → List (Option Tree) → Bool) : List (Option Tree) → Bool
  | [] => false
  | none :: rest => anyNodeIn p rest
  | some t :: rest => anyNode p t || anyNodeIn p rest

end

/-- Whether the `else` of a node stands behind a branch that takes it. -/
def elseDangles (label : Label) (slots : List (Option Tree)) : Bool :=
  match label, slots with
  | .fixed .ifElse, [_, some yes, some _] => yes.takesElse
  | _, _ => false

/-- Whether a node has an empty list of captured variables. -/
def usesNothing (label : Label) (slots : List (Option Tree)) : Bool :=
  match label, slots with
  | .decl _ _ _, [_, some uses, _, _] => uses.slots.isEmpty
  | _, _ => false

def danglesElse : Tree → Bool :=
  anyNode elseDangles

def capturesNothing : Tree → Bool :=
  anyNode usesNothing

variable {t u last : Tree} {line : Nat} {label : Label} {slots : List (Option Tree)}

theorem spelled_node (line : Nat) (label : Label) (slots : List (Option Tree)) :
    (node line label slots).spelled = spell line label (slots.map (Option.map spelled)) :=
  fold_node spell line label slots

/-! ### Trees that are the same -/

theorem sameSlots_iff {xs ys : List (Option Tree)} :
    sameSlots xs ys = true ↔ List.Forall₂ (Option.Rel fun t u => t.same u = true) xs ys := by
  induction xs generalizing ys with
  | nil => cases ys <;> simp [sameSlots]
  | cons o xs ih =>
      cases ys with
      | nil => cases o <;> simp [sameSlots]
      | cons o' ys => cases o <;> cases o' <;> simp [sameSlots, ih]

theorem sameSlots_cons_iff {o o' : Option Tree} {xs ys : List (Option Tree)} :
    sameSlots (o :: xs) (o' :: ys) = true ↔ sameSlots [o] [o'] = true ∧ sameSlots xs ys = true := by
  simp [sameSlots_iff]

theorem label_eq_of_same {kind : FixedKind} (h : (Label.fixed kind).same label = true) :
    label = .fixed kind := by
  cases label <;> simp_all [Label.same]

/-- Whether a statement takes an `else` does not depend on lines. -/
theorem takesElse_of_same (h : t.same u = true) (ht : t.takesElse = true) : u.takesElse = true := by
  fun_induction takesElse t generalizing u with
  | case1 line a b =>
      obtain ⟨line', label', slots'⟩ := u
      obtain ⟨hlabel, hslots⟩ := (Bool.and_eq_true _ _).mp h
      rw [label_eq_of_same hlabel]
      obtain _ | ⟨-, _ | ⟨-, _ | ⟨hc, ⟨⟩⟩⟩⟩ := sameSlots_iff.mp hslots
      cases hc
      rfl
  | case2 line a b no ih =>
      obtain ⟨line', label', slots'⟩ := u
      obtain ⟨hlabel, hslots⟩ := (Bool.and_eq_true _ _).mp h
      rw [label_eq_of_same hlabel]
      obtain _ | ⟨-, _ | ⟨-, _ | ⟨hc, ⟨⟩⟩⟩⟩ := sameSlots_iff.mp hslots
      cases hc with
      | some hno =>
          have hlast := ih hno ht
          exact hlast
  | case3 line a body ih =>
      obtain ⟨line', label', slots'⟩ := u
      obtain ⟨hlabel, hslots⟩ := (Bool.and_eq_true _ _).mp h
      rw [label_eq_of_same hlabel]
      obtain _ | ⟨-, _ | ⟨hb, ⟨⟩⟩⟩ := sameSlots_iff.mp hslots
      cases hb with
      | some hbody =>
          have hlast := ih hbody ht
          exact hlast
  | case4 line a b c body ih =>
      obtain ⟨line', label', slots'⟩ := u
      obtain ⟨hlabel, hslots⟩ := (Bool.and_eq_true _ _).mp h
      rw [label_eq_of_same hlabel]
      obtain _ | ⟨-, _ | ⟨-, _ | ⟨-, _ | ⟨hd, ⟨⟩⟩⟩⟩⟩ := sameSlots_iff.mp hslots
      cases hd with
      | some hbody =>
          have hlast := ih hbody ht
          exact hlast
  | case5 => cases ht

theorem takesElse_congr (h : t.same u = true) : t.takesElse = u.takesElse :=
  Bool.eq_iff_iff.mpr ⟨takesElse_of_same h, takesElse_of_same (same_symm h)⟩

/-! ### What is spelled, node by node -/

theorem spelled_ifElse (condition : Option Tree) (yes no : Tree) :
    (fixed .ifElse [condition, some yes, some no] line).spelled =
      if yes.spelled.takesElse then
        fixed .ifElse [condition.map spelled, some (giveElse no.spelled yes.spelled), none] line
      else fixed .ifElse [condition.map spelled, some yes.spelled, some no.spelled] line :=
  spelled_node line _ _

theorem spelled_decl (kind : DeclKind) (name : String) (flags : Nat) (params body result : Option Tree)
    (uses : Tree) :
    (node line (.decl kind name flags) [params, some uses, body, result]).spelled =
      node line (.decl kind name flags)
        [params.map spelled, if uses.spelled.slots.isEmpty then none else some uses.spelled,
          body.map spelled, result.map spelled] :=
  spelled_node line _ _

/-- All other nodes are spelled as they are. -/
theorem spelled_other
    (hif : ∀ condition yes no, label = .fixed .ifElse → slots ≠ [condition, some yes, some no])
    (hdecl : ∀ kind name flags params uses body result, label = .decl kind name flags →
      slots ≠ [params, some uses, body, result]) :
    (node line label slots).spelled = node line label (slots.map (Option.map spelled)) := by
  rw [spelled_node, spell]
  · intro condition yes no hlabel hslots
    rcases slots with _ | ⟨a, _ | ⟨_ | b, _ | ⟨_ | c, _ | _⟩⟩⟩
    all_goals first
      | exact hif _ _ _ hlabel rfl
      | simp at hslots
  · intro kind name flags params uses body result hlabel hslots
    rcases slots with _ | ⟨a, _ | ⟨_ | b, _ | ⟨c, _ | ⟨d, _ | _⟩⟩⟩⟩
    all_goals first
      | exact hdecl _ _ _ _ _ _ _ hlabel rfl
      | simp at hslots

theorem isEmpty_slots_spelled (t : Tree) : t.spelled.slots.isEmpty = t.slots.isEmpty := by
  obtain ⟨line, label, slots⟩ := t
  rw [spelled_node]
  unfold spell
  split
  · rename_i condition yes no heq
    have hslots : slots ≠ [] := by
      rintro rfl
      cases heq
    split <;> simp [fixed, Tree.slots, hslots]
  · rename_i heq
    have hslots : slots ≠ [] := by
      rintro rfl
      cases heq
    simp [Tree.slots, hslots]
  · simp [Tree.slots]

theorem spelled_list (kind : ListKind) (items : List Tree) :
    (list kind items line).spelled = list kind (items.map spelled) line := by
  rw [list, spelled_other (by simp) (by simp), list, List.map_map, List.map_map]
  rfl

theorem spelled_fixed {kind : FixedKind} (h : kind ≠ .ifElse) :
    (fixed kind slots line).spelled = fixed kind (slots.map (Option.map spelled)) line :=
  spelled_other (fun _ _ _ heq => absurd (Label.fixed.inj heq) h) (by simp)

/-- What is spelled of captured variables: nothing if there are none. -/
def spelledUses (uses : Option Tree) : Option Tree :=
  uses.bind fun t => if t.slots.isEmpty then none else some t.spelled

theorem spelled_signature (kind : DeclKind) (name : String) (flags : Nat)
    (params uses body result : Option Tree) :
    (node line (.decl kind name flags) [params, uses, body, result]).spelled =
      node line (.decl kind name flags)
        [params.map spelled, spelledUses uses, body.map spelled, result.map spelled] := by
  cases uses with
  | none => exact spelled_node ..
  | some uses => rw [spelled_decl, isEmpty_slots_spelled]; rfl

theorem label_spelled (t : Tree) : t.spelled.label = t.label := by
  obtain ⟨line, label, slots⟩ := t
  rw [spelled_node]
  unfold spell
  split
  · split <;> rfl
  · rfl
  · rfl

/-- Only control structures take an `else`. -/
theorem takesElse_of_label (h : t.label ∉ [.fixed .ifElse, .fixed .whileLoop, .fixed .forLoop]) :
    t.takesElse = false := by
  unfold takesElse
  split
  all_goals first
    | rfl
    | exact absurd (by simp [Tree.label]) h

/-! ### Where something else is spelled -/

variable {p q : Label → List (Option Tree) → Bool}

theorem anyNode_node : (node line label slots).anyNode p = (p label slots || anyNodeIn p slots) := by
  rw [anyNode]

theorem anyNodeIn_eq_false :
    anyNodeIn p slots = false ↔ ∀ t, some t ∈ slots → t.anyNode p = false := by
  induction slots with
  | nil => simp [anyNodeIn]
  | cons o rest ih => cases o <;> simp [anyNodeIn, ih]

theorem anyNode_eq_false : (node line label slots).anyNode p = false ↔
    p label slots = false ∧ ∀ t, some t ∈ slots → t.anyNode p = false := by
  rw [anyNode_node, Bool.or_eq_false_iff, anyNodeIn_eq_false]

theorem anyNode_or : t.anyNode (fun label slots => p label slots || q label slots) =
    (t.anyNode p || t.anyNode q) := by
  rw [Bool.eq_iff_iff, ← Bool.not_eq_false, ← Bool.not_eq_false, not_iff_not, Bool.or_eq_false_iff]
  induction t using Tree.induct with
  | node line label slots ih =>
      rw [anyNode_eq_false, anyNode_eq_false, anyNode_eq_false, Bool.or_eq_false_iff]
      grind

theorem hasNanIn_eq_false : hasNanIn slots = false ↔ ∀ t, some t ∈ slots → t.hasNan = false := by
  induction slots with
  | nil => simp [hasNanIn]
  | cons o rest ih => cases o <;> simp [hasNanIn, ih]

theorem same_of_label (h : label.same label = true) (m n : Nat) (xs ys : List (Option Tree)) :
    (node m label xs).same (node n label ys) = sameSlots xs ys := by
  rw [same, h, Bool.true_and]

/-- Children are spelled as they are exactly if each of them is. -/
theorem sameSlots_spelled (h : ∀ t, some t ∈ slots → t.spelled.same t = !t.anyNode p) :
    sameSlots (slots.map (Option.map spelled)) slots = !anyNodeIn p slots := by
  induction slots with
  | nil => rfl
  | cons o rest ih =>
      have hrest := ih fun t ht => h t (List.mem_cons_of_mem _ ht)
      cases o with
      | none => exact hrest
      | some t =>
          rw [List.map_cons, Option.map_some, sameSlots, anyNodeIn, h t List.mem_cons_self, hrest,
            Bool.not_or]

theorem same_spelled_ifElse (condition : Option Tree) (yes no : Tree)
    (h : sameSlots ([condition, some yes, some no].map (Option.map spelled))
      [condition, some yes, some no] = !anyNodeIn p [condition, some yes, some no])
    (hyes : yes.spelled.same yes = !yes.anyNode p) :
    (fixed .ifElse [condition, some yes, some no] line).spelled.same
        (fixed .ifElse [condition, some yes, some no] line) =
      !(yes.takesElse || anyNodeIn p [condition, some yes, some no]) := by
  rw [spelled_ifElse]
  cases hbelow : anyNodeIn p [condition, some yes, some no] with
  | true =>
      rw [hbelow] at h
      split
      · cases condition <;> simp [sameSlots]
      · rw [same_fixed, Bool.or_true]
        exact h
  | false =>
      rw [hbelow] at h
      rw [anyNodeIn_eq_false.mp hbelow yes (by simp)] at hyes
      rw [takesElse_congr hyes]
      cases yes.takesElse with
      | true => cases condition <;> simp [sameSlots]
      | false => exact same_fixed.trans h

theorem same_spelled_decl (kind : DeclKind) (name : String) (flags : Nat)
    (params body result : Option Tree) (uses : Tree)
    (h : sameSlots ([params, some uses, body, result].map (Option.map spelled))
      [params, some uses, body, result] = !anyNodeIn p [params, some uses, body, result]) :
    (node line (.decl kind name flags) [params, some uses, body, result]).spelled.same
        (node line (.decl kind name flags) [params, some uses, body, result]) =
      !(uses.slots.isEmpty || anyNodeIn p [params, some uses, body, result]) := by
  rw [spelled_decl, same_of_label (Label.same_self _), isEmpty_slots_spelled]
  cases uses.slots.isEmpty with
  | true => cases params <;> simp [sameSlots]
  | false => exact h

/-- A tree without NaN is spelled as it is exactly if no `else` stands behind a branch that takes it
and no list of captured variables is empty. -/
theorem same_spelled (h : t.hasNan = false) :
    t.spelled.same t = !(t.danglesElse || t.capturesNothing) := by
  rw [danglesElse, capturesNothing, ← anyNode_or]
  induction t using Tree.induct with
  | node line label slots ih =>
      rw [hasNan, Bool.or_eq_false_iff, hasNanIn_eq_false] at h
      have hlabel : label.same label = true := by rw [Label.same_self, h.1, Bool.not_false]
      have hslots := sameSlots_spelled fun t ht => ih t ht (h.2 t ht)
      rw [anyNode_node]
      by_cases hif : ∃ condition yes no, label = .fixed .ifElse ∧
          slots = [condition, some yes, some no]
      · obtain ⟨condition, yes, no, rfl, rfl⟩ := hif
        have hyes := ih yes (by simp) (h.2 yes (by simp))
        have hhere : (elseDangles (.fixed .ifElse) [condition, some yes, some no] ||
            usesNothing (.fixed .ifElse) [condition, some yes, some no]) = yes.takesElse :=
          Bool.or_false yes.takesElse
        rw [hhere]
        exact same_spelled_ifElse condition yes no hslots hyes
      · by_cases hdecl : ∃ kind name flags params uses body result,
            label = .decl kind name flags ∧ slots = [params, some uses, body, result]
        · obtain ⟨kind, name, flags, params, uses, body, result, rfl, rfl⟩ := hdecl
          exact same_spelled_decl kind name flags params body result uses hslots
        · have helse : elseDangles label slots = false := by
            unfold elseDangles
            split
            · exact (hif ⟨_, _, _, rfl, rfl⟩).elim
            · rfl
          have huses : usesNothing label slots = false := by
            unfold usesNothing
            split
            · exact (hdecl ⟨_, _, _, _, _, _, _, rfl, rfl⟩).elim
            · rfl
          rw [spelled_other (fun _ _ _ hl hs => hif ⟨_, _, _, hl, hs⟩)
            (fun _ _ _ _ _ _ _ hl hs => hdecl ⟨_, _, _, _, _, _, _, hl, hs⟩),
            same_of_label hlabel, hslots, helse, huses]
          rfl

end Tree

end SnippetRewrite
