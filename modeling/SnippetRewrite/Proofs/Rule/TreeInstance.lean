import SnippetRewrite.Proofs.Arena.Editing
import SnippetRewrite.Proofs.Rule.TreeMatch

/-!
Instances of templates as trees. What a template builds in an arena is the tree that this function
gives for the trees bound to its captures, and it is refused in the same cases for the same reason.
-/

namespace SnippetRewrite

open Placement

namespace Tree

/-- A node with children of its own, whose number must be that of its kind. -/
def shaped (line : Nat) (label : Label) (slots : List (Option Tree)) :
    Except ShapeViolation Tree :=
  match label.arity? with
  | some n =>
    if slots.length = n then .ok (.node line label slots)
    else .error (.arity label.kind n slots.length)
  | none => .ok (.node line label slots)

mutual

/-- A template with trees in the places of its capture points; its own nodes stand at one line. -/
def instantiate (s : TreeBindings) (line : Nat) : Tree → Except ShapeViolation Tree
  | .node _ (.capture name) _ =>
    match s.get? name with
    | some t => .ok t
    | none => .error (.unboundCapture name)
  | .node _ (.leaf kind value) _ => .ok (.node line (.leaf kind value) [])
  | .node _ label slots => do shaped line label (← instantiateSlots s line slots)

def instantiateSlots (s : TreeBindings) (line : Nat) :
    List (Option Tree) → Except ShapeViolation (List (Option Tree))
  | [] => .ok []
  | none :: rest => do pure (none :: (← instantiateSlots s line rest))
  | some t :: rest => do
    let u ← instantiate s line t
    pure (some u :: (← instantiateSlots s line rest))

end

end Tree

namespace Edit

variable {a b : Arena} {es : List Entry}

/-- The edit adds the tree that is given, or is refused for the given reason. -/
def Yields (x : Edit NodeId) (a : Arena) (es : List Entry) : Except ShapeViolation Tree → Prop
  | .ok t => x.Adds a es t
  | .error v => ∃ b, x a = .error (.shape v) b

def YieldsIn (x : Edit (List (Option NodeId))) (a : Arena) (es : List Entry) :
    Except ShapeViolation (List (Option Tree)) → Prop
  | .ok ts => x.AddsIn a es ts
  | .error v => ∃ b, x a = .error (.shape v) b

theorem YieldsIn.none {x : Edit (List (Option NodeId))}
    {r : Except ShapeViolation (List (Option Tree))} (h : x.YieldsIn a es r) :
    YieldsIn (do let ids ← x; pure (Option.none :: ids)) a es
      (do let ts ← r; pure (Option.none :: ts)) := by
  cases r with
  | ok ts => exact AddsIn.none h
  | error v =>
      obtain ⟨b, hb⟩ := h
      exact ⟨b, bind_error hb⟩

theorem YieldsIn.some {x : Edit NodeId} {y : Edit (List (Option NodeId))}
    {q : Except ShapeViolation Tree} {r : Except ShapeViolation (List (Option Tree))}
    (hx : x.Yields a es q)
    (hy : ∀ b fs, b.Owns (fs ++ es) → a.Grown b → y.YieldsIn b (fs ++ es) r) :
    YieldsIn (do let id ← x; let ids ← y; pure (Option.some id :: ids)) a es
      (do let t ← q; let ts ← r; pure (Option.some t :: ts)) := by
  cases q with
  | error v =>
      obtain ⟨b, hb⟩ := hx
      exact ⟨b, bind_error hb⟩
  | ok t =>
      cases r with
      | ok ts => exact AddsIn.some hx hy
      | error v =>
          obtain ⟨l, b, hl, -, hb, hgrown⟩ := hx
          obtain ⟨c, hc⟩ := hy b l.entries hb hgrown
          exact ⟨c, by rw [bind_ok hl, bind_error hc]⟩

/-- A node after its children: the first refusal is the outcome. -/
theorem YieldsIn.node {x : Edit (List (Option NodeId))} {f : List (Option NodeId) → Edit NodeId}
    {r : Except ShapeViolation (List (Option Tree))}
    {g : List (Option Tree) → Except ShapeViolation Tree} (hx : x.YieldsIn a es r)
    (hf : ∀ slots b, b.Owns (entriesIn slots ++ es) →
      (f (idsOf slots)).Yields b es (g (treesIn slots))) : (x >>= f).Yields a es (r >>= g) := by
  cases r with
  | error v =>
      obtain ⟨b, hb⟩ := hx
      exact ⟨b, bind_error hb⟩
  | ok ts =>
      obtain ⟨slots, b, hslots, rfl, hb, hgrown⟩ := hx
      have hnode := hf slots b hb
      rw [ok_bind]
      cases ht : g (treesIn slots) with
      | error v =>
          rw [ht] at hnode
          obtain ⟨c, hc⟩ := hnode
          exact ⟨c, by rw [bind_ok hslots, hc]⟩
      | ok t =>
          rw [ht] at hnode
          obtain ⟨l, c, hc, htree, howns, hgrown'⟩ := hnode
          exact ⟨l, c, by rw [bind_ok hslots, hc], htree, howns, hgrown.trans hgrown'⟩

theorem node_yields {slots : List (Option Placement)} (h : a.Owns (entriesIn slots ++ es))
    (line : Nat) {label : Label} (hleaf : ∀ kind value, label ≠ .leaf kind value)
    (hcapture : ∀ name, label ≠ .capture name) :
    (Edit.node line label (idsOf slots)).Yields a es (Tree.shaped line label (treesIn slots)) := by
  cases label with
  | leaf kind value => exact (hleaf kind value rfl).elim
  | capture name => exact (hcapture name rfl).elim
  | list kind =>
      have hlen (n : Nat) (hn : (Label.list kind).arity? = Option.some n) : slots.length = n := by
        cases hn
      exact ofSlots_adds h line hlen
  | fixed kind | decl kind =>
      simp only [Edit.node, fixed, decl, shaped, Tree.shaped, Label.arity?, length_idsOf,
        length_treesIn]
      by_cases hlen : slots.length = kind.arity
      · rw [if_pos hlen, if_pos hlen]
        exact ofSlots_adds h line fun n hn => hlen.trans (Option.some.inj hn)
      · rw [if_neg hlen, if_neg hlen]
        exact ⟨a, rfl⟩

end Edit

namespace Template

variable {a : Arena} {es : List Entry} {ids : List NodeId} {b : Bindings} {s : TreeBindings}

/-! Equations for nodes that are neither capture points nor leaves. -/

theorem build_node (b : Bindings) (line line' : Nat) {label : Label}
    (hleaf : ∀ kind value, label ≠ .leaf kind value) (hcapture : ∀ name, label ≠ .capture name)
    (slots : List (Option Tree)) :
    build b line (.node line' label slots) = buildSlots b line slots >>= Edit.node line label := by
  cases label with
  | leaf kind value => exact (hleaf kind value rfl).elim
  | capture name => exact (hcapture name rfl).elim
  | _ => rw [build] <;> simp

theorem instantiate_node (s : TreeBindings) (line line' : Nat) {label : Label}
    (hleaf : ∀ kind value, label ≠ .leaf kind value) (hcapture : ∀ name, label ≠ .capture name)
    (slots : List (Option Tree)) :
    (Tree.node line' label slots).instantiate s line =
      Tree.instantiateSlots s line slots >>= Tree.shaped line label := by
  cases label with
  | leaf kind value => exact (hleaf kind value rfl).elim
  | capture name => exact (hcapture name rfl).elim
  | _ => rw [Tree.instantiate] <;> simp

end Template

namespace Tree

variable {s : TreeBindings} {line line' : Nat} {label : Label} {slots : List (Option Tree)} {v : Tree}

theorem eq_of_shaped (h : shaped line label slots = .ok v) : v = .node line label slots := by
  unfold shaped at h
  split at h
  · split at h <;> cases h
    rfl
  · cases h
    rfl

theorem get?_of_instance {name : String}
    (h : (node line' (.capture name) slots).instantiate s line = .ok v) : s.get? name = some v := by
  rw [instantiate] at h
  split at h
  · rename_i t hget
    cases h
    exact hget
  · cases h

/-- What an instance is: the tree that the capture is bound to, a leaf, or a node with the instances
of the children. -/
theorem instance_cases (h : (node line' label slots).instantiate s line = .ok v) :
    (∃ name, label = .capture name ∧ s.get? name = some v) ∨
      (∃ kind value, label = .leaf kind value ∧ v = node line label []) ∨
        (∀ name, label ≠ .capture name) ∧
          ∃ vs, instantiateSlots s line slots = .ok vs ∧ v = node line label vs := by
  rcases label.capture_or with ⟨name, rfl⟩ | hcapture
  · exact .inl ⟨name, rfl, get?_of_instance h⟩
  · by_cases hleaf : ∃ kind value, label = .leaf kind value
    · obtain ⟨kind, value, rfl⟩ := hleaf
      rw [instantiate] at h
      cases h
      exact .inr (.inl ⟨kind, value, rfl, rfl⟩)
    · rw [Template.instantiate_node s line line' (fun kind value heq => hleaf ⟨kind, value, heq⟩)
        hcapture] at h
      obtain ⟨vs, hvs, h⟩ := bind_eq_ok.mp h
      exact .inr (.inr ⟨hcapture, vs, hvs, eq_of_shaped h⟩)

end Tree

namespace Template

variable {a : Arena} {es : List Entry} {ids : List NodeId} {b : Bindings} {s : TreeBindings}

mutual

/-- Building a template is building its tree for the bound trees. -/
theorem build_yields (line : Nat) : (t : Tree) → (a : Arena) → (es : List Entry) → a.Owns es →
    a.Bound ids b s → (build b line t).Yields a es (t.instantiate s line)
  | .node line' label slots, a, es, ha, hb => by
    rcases label.capture_or with ⟨name, rfl⟩ | hcapture
    · simp only [build, Tree.instantiate]
      rcases hb.get? name with ⟨hbn, hsn⟩ | ⟨id, t, hbn, hsn, l, hl, rfl, rfl⟩
      · rw [hbn, hsn]
        exact ⟨a, rfl⟩
      · rw [hbn, hsn]
        exact Edit.deepCopy_adds ha hl
    · by_cases hleaf : ∃ kind value, label = .leaf kind value
      · -- a leaf is stored without a look at its child slots, so it cannot be refused
        obtain ⟨kind, value, rfl⟩ := hleaf
        simp only [build, Tree.instantiate]
        exact Edit.leaf_adds ha kind value line
      · have hleaf' : ∀ kind value, label ≠ .leaf kind value :=
          fun kind value heq => hleaf ⟨kind, value, heq⟩
        rw [build_node b line line' hleaf' hcapture, instantiate_node s line line' hleaf' hcapture]
        exact (buildSlots_yields line slots a es ha hb).node fun stored c hc =>
          Edit.node_yields hc line hleaf' hcapture

theorem buildSlots_yields (line : Nat) : (slots : List (Option Tree)) → (a : Arena) →
    (es : List Entry) → a.Owns es → a.Bound ids b s →
    (buildSlots b line slots).YieldsIn a es (Tree.instantiateSlots s line slots)
  | [], _, _, ha, _ => .nil ha
  | none :: rest, a, es, ha, hb => by
    rw [buildSlots, Tree.instantiateSlots]
    exact (buildSlots_yields line rest a es ha hb).none
  | some t :: rest, a, es, ha, hb => by
    rw [buildSlots, Tree.instantiateSlots]
    exact .some (build_yields line t a es ha hb) fun c fs hc hgrown =>
      buildSlots_yields line rest c (fs ++ es) hc (hb.grown hgrown)

end

end Template

end SnippetRewrite
