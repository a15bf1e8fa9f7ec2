import SnippetRewrite.Proofs.Rule.FreshInstance
import SnippetRewrite.Proofs.Rule.Overlap

/-!
Instances of a pattern under its own bindings. What a matcher compares of a tree is its form: the
tree itself, or the collapsed form where lists with one statement are transparent. Trees of one form
are matched by the same patterns. A pattern that is instantiated with what it has bound gives a tree
of the form that it has matched, at the same line, so it matches there again.
-/

namespace SnippetRewrite

namespace Tree

theorem hasNan_of_same {t u : Tree} (h : t.same u = true) : t.hasNan = false := by
  have hself := same_trans t u t h (same_symm h)
  rw [same_self] at hself
  simpa using hself

mutual

theorem hasNan_collapse : (t : Tree) → t.collapse.hasNan = t.hasNan
  | .node line label slots => by
    by_cases hsingle : IsSingle label slots
    · obtain ⟨rfl, only, rfl⟩ := hsingle
      simp [collapse, hasNan_collapse only, hasNan, hasNanIn, Label.hasNan]
    · rw [collapse_node hsingle, hasNan, hasNan, hasNanIn_collapseSlots slots]

theorem hasNanIn_collapseSlots : (slots : List (Option Tree)) →
    hasNanIn (collapseSlots slots) = hasNanIn slots
  | [] => rfl
  | none :: rest => hasNanIn_collapseSlots rest
  | some t :: rest => by
    rw [collapseSlots, hasNanIn, hasNanIn, hasNan_collapse t, hasNanIn_collapseSlots rest]

end

theorem collapseSlots_eq_map (slots : List (Option Tree)) :
    collapseSlots slots = slots.map (Option.map collapse) := by
  induction slots with
  | nil => rfl
  | cons o rest ih => cases o <;> simp [collapseSlots, ih]

theorem unwrapSingle_of_not_isSingle {t : Tree} (h : ¬ IsSingle t.label t.slots) :
    t.unwrapSingle = t := by
  refine unwrapSingle.eq_2 t fun line only heq => h ?_
  subst heq
  exact ⟨rfl, only, rfl⟩

theorem isSingle_map {f : Tree → Tree} {label : Label} {slots : List (Option Tree)} :
    IsSingle label (slots.map (Option.map f)) ↔ IsSingle label slots := by
  rcases slots with _ | ⟨_ | t, _ | ⟨o, rest⟩⟩ <;> simp [IsSingle]

theorem exists_of_sameSlots {xs ys : List (Option Tree)} {u : Tree} (h : sameSlots xs ys = true)
    (hu : some u ∈ ys) : ∃ t, some t ∈ xs ∧ t.same u = true := by
  rw [sameSlots_comm] at h
  induction ys generalizing xs with
  | nil => cases hu
  | cons o ys ih =>
      cases o with
      | none =>
          obtain ⟨xs, rfl, h⟩ := exists_none_of_sameSlots h
          obtain ⟨t, ht, hsame⟩ := ih h (by simpa using hu)
          exact ⟨t, List.mem_cons_of_mem _ ht, hsame⟩
      | some v =>
          obtain ⟨t, xs, rfl, hfirst, h⟩ := exists_some_of_sameSlots h
          rcases List.mem_cons.mp hu with heq | hu
          · cases heq
            exact ⟨t, List.mem_cons_self, same_symm hfirst⟩
          · obtain ⟨t', ht', hsame⟩ := ih h hu
            exact ⟨t', List.mem_cons_of_mem _ ht', hsame⟩

/-- Slots without NaN stay equal if the tree in one of them is exchanged for an equal one. -/
theorem sameSlots_exchange {before after : List (Option Tree)} {t u : Tree}
    (hnan : hasNanIn (before ++ some t :: after) = false) (h : u.same t = true) :
    sameSlots (before ++ some u :: after) (before ++ some t :: after) = true := by
  induction before with
  | nil =>
      simp only [List.nil_append, hasNanIn, Bool.or_eq_false_iff] at hnan
      simp [sameSlots, h, sameSlots_self, hnan.2]
  | cons o before ih =>
      cases o with
      | none => exact ih hnan
      | some x =>
          simp only [List.cons_append, hasNanIn, Bool.or_eq_false_iff] at hnan
          simp [sameSlots, same_self, hnan.1, ih hnan.2]

end Tree

namespace Matcher

open SnippetRewrite.Tree

variable {m : Matcher} {p t u : Tree} {b c : TreeBindings} {direct : Bool} {line : Nat}

/-- What the matcher compares of a tree. -/
def form (m : Matcher) (t : Tree) : Tree :=
  if m.unwrapSingle then t.collapse else t

theorem eq_plain_or (m : Matcher) : m = plain ∨ m = unwrapping := by
  obtain ⟨_ | _⟩ := m
  · exact .inl rfl
  · exact .inr rfl

theorem form_unwrapping (t : Tree) : unwrapping.form t = t.collapse := rfl

/-- The form of a node has the label of the node that is seen, and the forms of its children. -/
theorem form_eq (m : Matcher) (t : Tree) :
    m.form t = .node (m.seenTree t).line (m.seenTree t).label
      ((m.seenTree t).slots.map (Option.map m.form)) := by
  rcases m.eq_plain_or with rfl | rfl
  · have hid : Option.map plain.form = id := by
      funext o
      cases o <;> rfl
    rw [hid, List.map_id]
    cases t
    rfl
  · refine (collapse_eq t).trans ?_
    rw [collapseSlots_eq_map]
    rfl

theorem hasNan_form (m : Matcher) (t : Tree) : (m.form t).hasNan = t.hasNan := by
  rcases m.eq_plain_or with rfl | rfl
  · rfl
  · exact hasNan_collapse t

theorem same_form_self (ht : t.hasNan = false) : (m.form t).same (m.form t) = true := by
  rw [same_self, hasNan_form, ht]
  rfl

theorem form_of_same_seenTree (h : m.seenTree t = m.seenTree u) : m.form t = m.form u := by
  rw [form_eq, h, ← form_eq]

theorem form_of_plain (h : m.unwrapSingle = false) (t : Tree) : m.form t = t :=
  if_neg (by simp [h])

theorem same_collapse_of_form (h : (m.form t).same (m.form u) = true) :
    t.collapse.same u.collapse = true := by
  rcases m.eq_plain_or with rfl | rfl
  · exact same_collapse t u h
  · exact h

/-- Trees of the same form have children of the same forms. -/
theorem exists_slot_of_same_form (hseen : m.seenTree u = u)
    (hsame : (m.form t).same (m.form u) = true) {x : Tree} (hx : some x ∈ u.slots) :
    ∃ y, some y ∈ (m.seenTree t).slots ∧ (m.form y).same (m.form x) = true := by
  rw [form_eq, form_eq m u, hseen, same, Bool.and_eq_true] at hsame
  obtain ⟨z, hz, hzx⟩ := exists_of_sameSlots hsame.2 (List.mem_map_of_mem (f := Option.map m.form) hx)
  obtain ⟨o, ho, heq⟩ := List.mem_map.mp hz
  obtain ⟨y, rfl, rfl⟩ := Option.map_eq_some_iff.mp heq
  exact ⟨y, ho, hzx⟩

/-- The form of a tree depends on the forms of its subtrees. -/
theorem same_form_exchange {label : Label} {before after : List (Option Tree)}
    (hnan : (node line label (before ++ some t :: after)).hasNan = false)
    (h : (m.form u).same (m.form t) = true) :
    (m.form (node line label (before ++ some u :: after))).same
      (m.form (node line label (before ++ some t :: after))) = true := by
  simp only [hasNan, Bool.or_eq_false_iff] at hnan
  have hlabel : label.same label = true := by simp [Label.same_self, hnan.1]
  rcases m.eq_plain_or with rfl | rfl
  · exact Bool.and_eq_true_iff.mpr ⟨hlabel, sameSlots_exchange hnan.2 h⟩
  · by_cases hsingle : label = .list .stmtList ∧ before = [] ∧ after = []
    · obtain ⟨rfl, rfl, rfl⟩ := hsingle
      exact h
    · have hopen (x : Tree) : ¬ IsSingle label (before ++ some x :: after) := by
        rintro ⟨hlist, only, honly⟩
        refine hsingle ⟨hlist, ?_⟩
        rcases before with _ | ⟨o, before⟩ <;> simp_all
      rw [form_unwrapping, form_unwrapping, collapse_node (hopen u), collapse_node (hopen t),
        collapseSlots_eq_map, collapseSlots_eq_map]
      have hnan' := hnan.2
      rw [← hasNanIn_collapseSlots, collapseSlots_eq_map] at hnan'
      simp only [List.map_append, List.map_cons, Option.map_some] at hnan' ⊢
      exact Bool.and_eq_true_iff.mpr ⟨hlabel, sameSlots_exchange hnan' h⟩

/-! ### Matching and forms -/

/-- A match makes the forms of pattern and tree equal. -/
theorem treeMatch_form (ht : t.hasNan = false) (h : m.treeMatch direct p t b = some c) :
    Sound b c fun f => (m.form (p.subst f)).same (m.form t) = true := by
  rcases m.eq_plain_or with rfl | rfl
  · exact treeMatch_sound direct p t b c ht h
  · exact unwrapping_sound direct p t b c ht h

theorem same_form_assignment (ht : t.hasNan = false) (h : m.treeMatch true p t [] = some b) :
    (m.form (p.subst b.assignment)).same (m.form t) = true := by
  obtain ⟨hkept, hforms⟩ := treeMatch_form ht h
  exact hforms _ (TreeBindings.agrees_assignment (hkept.clean fun name u hu => by cases hu))

/-- Where a pattern matches depends on the form. -/
theorem exists_treeMatch_of_same_form
    (honce : m.unwrapSingle = false ∨ p.captureOccurrences.Nodup) (ht : t.hasNan = false)
    (hsame : (m.form t).same (m.form u) = true) (h : m.treeMatch true p t [] = some b) :
    ∃ c, m.treeMatch true p u [] = some c := by
  have hform := same_trans _ _ _ (same_form_assignment ht h) hsame
  rcases m.eq_plain_or with rfl | rfl
  · obtain ⟨c, hc, -⟩ := treeMatch_complete true p u [] [] ⟨by simp, rfl⟩ hform
    exact ⟨c, hc⟩
  · obtain ⟨c, hc, -⟩ := unwrapping_complete true p u [] (honce.resolve_left (by simp [unwrapping]))
      (fun _ _ => rfl) hform
    exact ⟨c, hc⟩

/-! ### Lines of a pattern -/

theorem isTransparent_map (m : Matcher) (label : Label) (slots : List (Option Tree))
    (f : Tree → Tree) : m.isTransparent label (slots.map (Option.map f)) = m.isTransparent label slots := by
  rcases slots with _ | ⟨_ | t, _ | ⟨o, rest⟩⟩ <;> rfl

mutual

/-- The lines of a pattern are not looked at. -/
theorem treeMatch_atLine (m : Matcher) (line : Nat) (direct : Bool) : (p t : Tree) →
    (b : TreeBindings) → m.treeMatch direct (p.atLine line) t b = m.treeMatch direct p t b
  | .node line' label slots, t, b => by
    rw [atLine_node]
    rcases label.capture_or with ⟨name, rfl⟩ | hlabel
    · rw [treeMatch_capture, treeMatch_capture]
    · rw [treeMatch_node m direct line hlabel, treeMatch_node m direct line' hlabel,
        isTransparent_map, treeMatchOnly_atLine m line slots t b, treeMatchSlots_atLine m line slots _ b,
        List.length_map]

theorem treeMatchOnly_atLine (m : Matcher) (line : Nat) : (slots : List (Option Tree)) →
    (t : Tree) → (b : TreeBindings) →
    m.treeMatchOnly (slots.map (Option.map (atLine line))) t b = m.treeMatchOnly slots t b
  | [some only], t, b => treeMatch_atLine m line false only t b
  | [], _, _ => rfl
  | [none], _, _ => rfl
  | some _ :: _ :: _, _, _ => rfl
  | none :: _ :: _, _, _ => rfl

theorem treeMatchSlots_atLine (m : Matcher) (line : Nat) : (ps ts : List (Option Tree)) →
    (b : TreeBindings) →
    m.treeMatchSlots (ps.map (Option.map (atLine line))) ts b = m.treeMatchSlots ps ts b
  | [], _, _ => rfl
  | none :: ps, none :: ts, b => treeMatchSlots_atLine m line ps ts b
  | some p :: ps, some t :: ts, b => by
    simp only [List.map_cons, Option.map_some, treeMatchSlots, treeMatch_atLine m line true p t b]
    congr 1
    funext c
    exact treeMatchSlots_atLine m line ps ts c
  | none :: _, [], _ => rfl
  | none :: _, some _ :: _, _ => rfl
  | some _ :: _, [], _ => rfl
  | some _ :: _, none :: _, _ => rfl

end

/-! ### Instances -/

theorem seenTree_of_not_isSingle (h : ¬ IsSingle t.label t.slots) : m.seenTree t = t := by
  unfold seenTree
  split
  · exact unwrapSingle_of_not_isSingle h
  · rfl

/-- The root of a pattern under its own bindings is a node of the pattern, or the whole tree that
was matched. -/
theorem root_of_own_instance (hbare : ¬ IsSingle p.label p.slots) (hseen : m.seenTree t = t)
    (h : m.treeMatch true p t [] = some b) :
    ((p.atLine t.line).subst b.assignment).line = t.line ∧
      m.seenTree ((p.atLine t.line).subst b.assignment) = (p.atLine t.line).subst b.assignment := by
  obtain ⟨line, label, slots⟩ := p
  rw [atLine_node]
  rcases label.capture_or with ⟨name, rfl⟩ | hlabel
  · rw [treeMatch_capture] at h
    cases h
    have hassigned : TreeBindings.assignment [(name, t)] name = t := by
      simp [TreeBindings.assignment, TreeBindings.get?]
    rw [subst]
    exact ⟨congrArg Tree.line hassigned, hassigned.symm ▸ hseen⟩
  · rw [subst_node _ t.line hlabel]
    exact ⟨rfl, seenTree_of_not_isSingle fun hsingle =>
      hbare (isSingle_map.mp (isSingle_subst.mp hsingle))⟩

/-- A pattern has an instance under its own bindings. It has the form of the tree that was matched,
stands at its line, and is no transparent list if that tree is none. -/
theorem exists_own_instance (hshape : p.hasShape = true) (hbare : ¬ IsSingle p.label p.slots)
    (ht : t.hasNan = false) (hseen : m.seenTree t = t) (h : m.treeMatch true p t [] = some b) :
    ∃ v, p.instantiate b t.line = .ok v ∧ v.line = t.line ∧ m.seenTree v = v ∧
      (m.form v).same (m.form t) = true := by
  have hbound : ∀ name ∈ p.captureOccurrences, b.get? name = some (b.assignment name) :=
    fun name hname => get?_of_treeMatch h (captureOccurrences_subset p [] hname)
  obtain ⟨hline, hroot⟩ := root_of_own_instance hbare hseen h
  rw [← treeMatch_atLine m t.line] at h
  exact ⟨_, instantiate_eq_subst p hshape hbound, hline, hroot, same_form_assignment ht h⟩

end Matcher

end SnippetRewrite
