import SnippetRewrite.Syntax.Tree

/-!
Structural equality of trees is symmetric and transitive. It is reflexive on exactly those trees
that hold no NaN, at whatever depth of an array value it may stand.
-/

namespace SnippetRewrite

namespace Double

theorem same_trans {x y z : Double} (h : x.same y = true) (h' : y.same z = true) :
    x.same z = true := by
  cases x <;> cases y <;> simp [same] at h
  · cases z <;> simp [same] at h' ⊢
    rw [h, h']
  · cases z <;> simp [same] at h' ⊢
    rcases h with ⟨hx, hy⟩ | ⟨⟨rfl, rfl⟩, rfl⟩
    · rcases h' with ⟨-, hz⟩ | ⟨⟨-, rfl⟩, -⟩
      · exact Or.inl ⟨hx, hz⟩
      · exact Or.inl ⟨hx, hy⟩
    · exact h'

end Double

namespace Value

mutual

/-- Whether a value is a NaN or an array that holds one. -/
def hasNan : Value → Bool
  | float x => x.isNan
  | array items => hasNanIn items
  | _ => false

def hasNanIn : List Value → Bool
  | [] => false
  | v :: rest => hasNan v || hasNanIn rest

end

mutual

theorem same_self : (v : Value) → v.same v = !v.hasNan
  | null | bool _ | int _ | str _ => by simp [same, hasNan]
  | float x => by simp [same, hasNan, Double.same_self]
  | array items => by simp [same, hasNan, sameItems_self items]

theorem sameItems_self : (vs : List Value) → sameItems vs vs = !hasNanIn vs
  | [] => rfl
  | v :: rest => by simp [sameItems, hasNanIn, same_self v, sameItems_self rest]

end

mutual

theorem same_comm : (v w : Value) → v.same w = w.same v
  | array xs, w => by
    cases w with
    | array ys => exact sameItems_comm xs ys
    | _ => rfl
  | float x, w => by
    cases w with
    | float y => exact Double.same_comm x y
    | _ => rfl
  | null, w | bool _, w | int _, w | str _, w => by
    cases w <;> simp [same, Bool.beq_eq_decide_eq, eq_comm]

theorem sameItems_comm : (xs ys : List Value) → sameItems xs ys = sameItems ys xs
  | [], ys => by cases ys <;> rfl
  | x :: xs, ys => by
    cases ys with
    | nil => rfl
    | cons y ys => simp only [sameItems, same_comm x y, sameItems_comm xs ys]

end

mutual

theorem same_trans : (v w x : Value) → v.same w = true → w.same x = true → v.same x = true
  | array xs, w, x, h, h' => by
    cases w <;> simp only [same, Bool.false_eq_true] at h
    cases x <;> simp only [same, Bool.false_eq_true] at h'
    exact sameItems_trans xs _ _ h h'
  | float a, w, x, h, h' => by
    cases w <;> simp only [same, Bool.false_eq_true] at h
    cases x <;> simp only [same, Bool.false_eq_true] at h'
    exact Double.same_trans h h'
  | null, w, x, h, h' | bool _, w, x, h, h' | int _, w, x, h, h' | str _, w, x, h, h' => by
    cases w <;> simp [same] at h
    cases x <;> simp [same] at h' ⊢
    try exact h.trans h'

theorem sameItems_trans : (xs ys zs : List Value) → sameItems xs ys = true →
    sameItems ys zs = true → sameItems xs zs = true
  | [], ys, zs, h, h' => by
    cases ys <;> simp [sameItems] at h
    exact h'
  | x :: xs, ys, zs, h, h' => by
    cases ys with
    | nil => simp [sameItems] at h
    | cons y ys =>
      cases zs with
      | nil => simp [sameItems] at h'
      | cons z zs =>
        simp only [sameItems, Bool.and_eq_true] at h h' ⊢
        exact ⟨same_trans x y z h.1 h'.1, sameItems_trans xs ys zs h.2 h'.2⟩

end

end Value

namespace Label

def hasNan : Label → Bool
  | leaf _ value => value.hasNan
  | _ => false

theorem same_self (l : Label) : l.same l = !l.hasNan := by
  cases l <;> simp [same, hasNan, Value.same_self]

theorem same_comm (l m : Label) : l.same m = m.same l := by
  cases l <;> cases m <;> simp [same, Value.same_comm, Bool.beq_eq_decide_eq, eq_comm]

theorem same_trans {l m n : Label} (h : l.same m = true) (h' : m.same n = true) :
    l.same n = true := by
  cases l <;> cases m <;> simp only [same, Bool.false_eq_true, Bool.and_eq_true, beq_iff_eq] at h
  · cases n <;> simp only [same, Bool.false_eq_true, Bool.and_eq_true, beq_iff_eq] at h' ⊢
    exact ⟨h.1.trans h'.1, Value.same_trans _ _ _ h.2 h'.2⟩
  · cases n <;> simp_all [same]
  · cases n <;> simp_all [same]
  · cases n <;> simp_all [same]
  · cases n <;> simp_all [same]

end Label

namespace Tree

mutual

def hasNan : Tree → Bool
  | node _ label slots => label.hasNan || hasNanIn slots

def hasNanIn : List (Option Tree) → Bool
  | [] => false
  | none :: rest => hasNanIn rest
  | some t :: rest => hasNan t || hasNanIn rest

end

mutual

theorem same_self : (t : Tree) → t.same t = !t.hasNan
  | node _ label slots => by simp [same, hasNan, Label.same_self, sameSlots_self slots]

theorem sameSlots_self : (slots : List (Option Tree)) → sameSlots slots slots = !hasNanIn slots
  | [] => rfl
  | none :: rest => by simp [sameSlots, hasNanIn, sameSlots_self rest]
  | some t :: rest => by simp [sameSlots, hasNanIn, same_self t, sameSlots_self rest]

end

mutual

theorem same_comm : (t u : Tree) → t.same u = u.same t
  | node _ a xs, node _ b ys => by simp only [same, Label.same_comm a b, sameSlots_comm xs ys]

theorem sameSlots_comm : (xs ys : List (Option Tree)) → sameSlots xs ys = sameSlots ys xs
  | [], ys => by
    rcases ys with _ | ⟨_ | u, ys⟩ <;> rfl
  | none :: xs, ys => by
    rcases ys with _ | ⟨_ | u, ys⟩
    · rfl
    · exact sameSlots_comm xs ys
    · rfl
  | some t :: xs, ys => by
    rcases ys with _ | ⟨_ | u, ys⟩
    · rfl
    · rfl
    · simp only [sameSlots, same_comm t u, sameSlots_comm xs ys]

end

mutual

theorem same_trans : (t u v : Tree) → t.same u = true → u.same v = true → t.same v = true
  | node _ a xs, node _ b ys, node _ c zs, h, h' => by
    simp only [same, Bool.and_eq_true] at h h' ⊢
    exact ⟨Label.same_trans h.1 h'.1, sameSlots_trans xs ys zs h.2 h'.2⟩

theorem sameSlots_trans : (xs ys zs : List (Option Tree)) → sameSlots xs ys = true →
    sameSlots ys zs = true → sameSlots xs zs = true
  | [], ys, zs, h, h' => by
    rcases ys with _ | ⟨_ | u, ys⟩
    · exact h'
    · simp [sameSlots] at h
    · simp [sameSlots] at h
  | none :: xs, ys, zs, h, h' => by
    rcases ys with _ | ⟨_ | u, ys⟩
    · simp [sameSlots] at h
    · rcases zs with _ | ⟨_ | v, zs⟩
      · simp [sameSlots] at h'
      · exact sameSlots_trans xs ys zs h h'
      · simp [sameSlots] at h'
    · simp [sameSlots] at h
  | some t :: xs, ys, zs, h, h' => by
    rcases ys with _ | ⟨_ | u, ys⟩
    · simp [sameSlots] at h
    · simp [sameSlots] at h
    · rcases zs with _ | ⟨_ | v, zs⟩
      · simp [sameSlots] at h'
      · simp [sameSlots] at h'
      · simp only [sameSlots, Bool.and_eq_true] at h h' ⊢
        exact ⟨same_trans t u v h.1 h'.1, sameSlots_trans xs ys zs h.2 h'.2⟩

end

theorem same_symm {t u : Tree} (h : t.same u = true) : u.same t = true := by
  rw [same_comm, h]

theorem same_congr {t u : Tree} (h : t.same u = true) (v : Tree) : t.same v = u.same v :=
  Bool.eq_iff_iff.mpr ⟨same_trans u t v (same_symm h), same_trans t u v h⟩

theorem length_eq_of_sameSlots {xs ys : List (Option Tree)} (h : sameSlots xs ys = true) :
    xs.length = ys.length := by
  induction xs generalizing ys with
  | nil =>
      rcases ys with _ | ⟨_ | u, ys⟩
      · rfl
      · simp [sameSlots] at h
      · simp [sameSlots] at h
  | cons o xs ih =>
      rcases o with _ | t
      · rcases ys with _ | ⟨_ | u, ys⟩
        · simp [sameSlots] at h
        · simpa using ih h
        · simp [sameSlots] at h
      · rcases ys with _ | ⟨_ | u, ys⟩
        · simp [sameSlots] at h
        · simp [sameSlots] at h
        · simp only [sameSlots, Bool.and_eq_true] at h
          simpa using ih h.2

/-! ### Slots that equal given ones -/

theorem eq_nil_of_sameSlots {ys : List (Option Tree)} (h : sameSlots [] ys = true) : ys = [] := by
  rcases ys with _ | ⟨_ | u, ys⟩
  · rfl
  · simp [sameSlots] at h
  · simp [sameSlots] at h

theorem exists_none_of_sameSlots {xs ys : List (Option Tree)}
    (h : sameSlots (none :: xs) ys = true) : ∃ rest, ys = none :: rest ∧ sameSlots xs rest = true := by
  rcases ys with _ | ⟨_ | u, ys⟩
  · simp [sameSlots] at h
  · exact ⟨ys, rfl, h⟩
  · simp [sameSlots] at h

theorem exists_some_of_sameSlots {t : Tree} {xs ys : List (Option Tree)}
    (h : sameSlots (some t :: xs) ys = true) :
    ∃ u rest, ys = some u :: rest ∧ t.same u = true ∧ sameSlots xs rest = true := by
  rcases ys with _ | ⟨_ | u, ys⟩
  · simp [sameSlots] at h
  · simp [sameSlots] at h
  · rw [sameSlots, Bool.and_eq_true] at h
    exact ⟨u, ys, rfl, h.1, h.2⟩

/-! ### Trees with the same label -/

@[simp] theorem same_fixed {kind : FixedKind} {xs ys : List (Option Tree)} {m n : Nat} :
    (fixed kind xs m).same (fixed kind ys n) = sameSlots xs ys := by
  simp [fixed, same, Label.same]

@[simp] theorem same_list {kind : ListKind} {ts us : List Tree} {m n : Nat} :
    (list kind ts m).same (list kind us n) = sameSlots (ts.map some) (us.map some) := by
  simp [list, same, Label.same]

@[simp] theorem same_name {text : String} {m n : Nat} :
    (name text m).same (name text n) = true := by
  simp [name, same, sameSlots, Label.ofName, Label.same, Value.same]

end Tree

end SnippetRewrite
