import SnippetRewrite.Proofs.Rewrite.Fixpoint
import SnippetRewrite.Proofs.Rule.Overlap

/-!
Rules that feed each other at most so often. A rule is applied to a tree whose children are in normal
form, so its captures are bound to normal forms; if no pattern overlaps a node of a template other
than its root, the children of an instance are in normal form as well. Hence only the root of an
instance can be rewritten again, and the depth of rewritten positions never exceeds one. Rewriting
then comes to an end with a number of rewrites that is linear in the size of the tree.
-/

namespace SnippetRewrite

namespace RuleStore

variable {m : Matcher} {t : Tree} {id i : RuleId} {sides : List (Pattern × Template)}
  {u : Template} {b : TreeBindings}

/-- The rule that is found matches, and none before it does. -/
theorem firstOn_spec (h : firstOn m t id sides = some (i, u, b)) :
    ∃ n p, i = id + n ∧ sides[n]? = some (p, u) ∧ m.treeMatch true p.tree t [] = some b ∧
      ∀ k < n, ∀ side, sides[k]? = some side → m.treeMatch true side.1.tree t [] = none := by
  induction sides generalizing id with
  | nil => cases h
  | cons side rest ih =>
      obtain ⟨p, u'⟩ := side
      rw [firstOn] at h
      split at h
      · rename_i hmatch
        cases h
        exact ⟨0, p, rfl, rfl, hmatch, fun k hk => absurd hk (Nat.not_lt_zero k)⟩
      · rename_i hmatch
        obtain ⟨n, p', rfl, hp', hmatch', hbefore⟩ := ih h
        refine ⟨n + 1, p', Nat.add_right_comm id 1 n, hp', hmatch', fun k hk side hside => ?_⟩
        cases k with
        | zero =>
            cases hside
            exact hmatch
        | succ k => exact hbefore k (Nat.lt_of_succ_lt_succ hk) side hside

theorem exists_of_firstOn (h : firstOn m t id sides = some (i, u, b)) :
    ∃ p : Pattern, (p, u) ∈ sides ∧ m.treeMatch true p.tree t [] = some b := by
  obtain ⟨n, p, -, hp, hmatch, -⟩ := firstOn_spec h
  exact ⟨p, List.mem_of_getElem? hp, hmatch⟩

theorem firstOn_eq_none (h : ∀ side ∈ sides, m.treeMatch true side.1.tree t [] = none) :
    firstOn m t id sides = none := by
  cases hfirst : firstOn m t id sides with
  | none => rfl
  | some found =>
      obtain ⟨i, u, b⟩ := found
      obtain ⟨p, hp, hmatch⟩ := exists_of_firstOn hfirst
      cases (h (p, u) hp).symm.trans hmatch

end RuleStore

namespace Rewriter

open RuleStore

variable {r : Rewriter} {n : Nat} {t u v : Tree} {b : TreeBindings} {line line' : Nat} {label : Label}
  {slots : List (Option Tree)}

/-- The rules settle after at most so many applications more than the first at a position, and the
limits of the settings admit that. -/
structure Settles (r : Rewriter) (n : Nat) : Prop where
  compiled : ∀ side ∈ r.sides, Compiled side.1 side.2
  closed : ∀ side ∈ r.sides, side.1.tree.isOpen = false
  settles : ∀ side ∈ r.sides, settlesWithin r.sides n side.2.tree = true
  depth : 2 ≤ r.config.maxDepth
  limit : n < r.config.maxRewritesPerNode

theorem Normal.hereditary (r : Rewriter) : Tree.Hereditary r.Normal := by
  intro line label slots h t ht
  cases h with
  | node below here => exact below t ht

theorem Normal.firstOn (h : r.Normal t) :
    RuleStore.firstOn (Pass.matcher r.config) t 0 r.sides = none := by
  cases h with
  | node below here => exact here

def NormalBindings (r : Rewriter) (b : TreeBindings) : Prop :=
  ∀ x ∈ b, r.Normal x.2

/-- A list around a normal form is not transparent to a pattern that matches it: the pattern would
match inside. -/
theorem seenTree_of_match {side : Pattern × Template} (hside : side ∈ r.sides)
    (hclosed : side.1.tree.isOpen = false) (hbelow : ∀ u, some u ∈ t.slots → r.Normal u)
    (hmatch : (Pass.matcher r.config).treeMatch true side.1.tree t [] = some b) :
    (Pass.matcher r.config).seenTree t = t := by
  rcases (Pass.matcher r.config).seenTree_or t with hseen | ⟨line, only, rfl, hsame⟩
  · exact hseen
  · exfalso
    have honly : r.Normal only := hbelow only List.mem_cons_self
    have hnone := treeMatch_of_firstOn_none honly.firstOn hside
    cases hp : side.1.tree with
    | node pline plabel pslots =>
        rw [hp] at hclosed hmatch hnone
        rw [Matcher.treeMatch_of_isOpen hclosed] at hmatch hnone
        rw [hsame] at hmatch
        cases hmatch.symm.trans hnone

/-- Where a pattern matches a tree with children in normal form, its captures are bound to normal
forms. -/
theorem normalBindings_of_match {side : Pattern × Template} (hside : side ∈ r.sides)
    (hclosed : side.1.tree.isOpen = false) (hbelow : ∀ u, some u ∈ t.slots → r.Normal u)
    (hmatch : (Pass.matcher r.config).treeMatch true side.1.tree t [] = some b) :
    r.NormalBindings b := by
  have hseen := seenTree_of_match hside hclosed hbelow hmatch
  cases hp : side.1.tree with
  | node pline plabel pslots =>
      rw [hp] at hclosed hmatch
      rw [Matcher.treeMatch_of_isOpen hclosed, hseen] at hmatch
      split at hmatch
      · exact Matcher.treeMatchSlots_forall (Normal.hereditary r) _ _ _ _ _ hbelow (by simp) hmatch
      · cases hmatch

/-- An instance of a template that no pattern overlaps is in normal form. -/
theorem normal_of_spares (hspares : sparesAll r.sides u = true) (hshape : u.hasShape = true)
    (hb : r.NormalBindings b) (hv : u.instantiate b line = .ok v) : r.Normal v := by
  induction u using Tree.induct generalizing v with
  | node line' label slots ih =>
      rcases label.capture_or with ⟨name, rfl⟩ | hcapture
      · exact hb _ (TreeBindings.mem_of_get? (Tree.get?_of_instance hv))
      · rw [sparesAll_node hcapture, Bool.and_eq_true] at hspares
        obtain ⟨vs, hvs, rfl⟩ := Tree.exists_slots_of_instance hcapture hshape hv
        refine .node (fun t ht => ?_) (firstOn_eq_none fun side hside => ?_)
        · obtain ⟨u, hu, hinstance⟩ := hvs.exists_of_mem ht
          exact ih u hu (sparesAll_of_mem hspares.2 hu) ((Tree.hasShape_node.mp hshape).1 u hu)
            hinstance
        · cases hmatch : (Pass.matcher r.config).treeMatch true side.1.tree _ [] with
          | none => rfl
          | some c =>
              have hoverlaps := Matcher.overlaps_of_treeMatch _ _ _ _ _ _ _ hshape hv hmatch
              rw [not_overlaps_of_spares hspares.1 hside] at hoverlaps
              cases hoverlaps

/-! ### Rewriting comes to an end -/

/-- The computations give a result from some bound on. -/
def Ends {α : Type} (f : Nat → Except RewriteError α) (result : α) : Prop :=
  ∃ enough, ∀ bound, enough ≤ bound → f bound = .ok result

theorem Ends.of_succ {α : Type} {f : Nat → Except RewriteError α} {result : α} (enough : Nat)
    (h : ∀ bound, enough ≤ bound → f (bound + 1) = .ok result) : Ends f result := by
  refine ⟨enough + 1, fun bound hbound => ?_⟩
  obtain ⟨k, rfl⟩ := Nat.exists_eq_add_of_le' (Nat.le_trans (Nat.le_add_left 1 enough) hbound)
  exact h k (Nat.le_of_succ_le_succ hbound)

theorem settle_of_match {again : Visitor} {apps : Nat} {s : Summary} {i : RuleId} {u : Template}
    (hfirst : RuleStore.firstOn (Pass.matcher r.config) t 0 r.sides = some (i, u, b))
    (happs : apps < r.config.maxRewritesPerNode) (hv : u.tree.instantiate b t.line = .ok v) :
    r.settle apps again t s = again v ⟨s.rewrites + 1, s.nodesVisited⟩ := by
  rw [settle, hfirst]
  dsimp only
  rw [if_neg (Nat.ne_of_lt happs), hv]

theorem innerGrowth_lt {depth : Nat} (hdepth : 2 ≤ depth) (apps : Nat) :
    innerGrowth apps 0 < depth := by
  unfold innerGrowth
  split <;> omega

/-- The visit of a node with children in normal form comes down to settling it, whatever was applied
there before. -/
theorem rewrite_of_below (hdepth : 2 ≤ r.config.maxDepth)
    (hbelow : ∀ u, some u ∈ t.slots → r.Normal u) {bound : Nat}
    (hbound : Tree.sizeIn t.slots ≤ bound) (apps w x : Nat) :
    r.rewrite (bound + 1) apps 0 t ⟨w, x⟩ =
      r.settle apps (r.rewrite bound (apps + 1) 0) t ⟨w, x + Tree.sizeIn t.slots⟩ := by
  have hinner := innerGrowth_lt hdepth apps
  have hvisit (u : Tree) (hu : some u ∈ t.slots) (w x : Nat) :
      r.rewrite bound 0 (innerGrowth apps 0) u ⟨w, x + 1⟩ = .ok (u, ⟨w, x + u.size⟩) :=
    rewrite_of_normal (hbelow u hu) (.inl (by omega))
      (Nat.le_trans (Tree.size_le_sizeIn hu) hbound) _ w x
  have hslots := visitSlots_of_normal (.inl hinner) hvisit w x
  cases t with
  | node line label slots =>
      simp only [Tree.slots] at hslots ⊢
      rw [rewrite, hslots]
      rfl

/-- A tree with children in normal form at which an application is due. -/
theorem exists_application (h : r.Settles n) (hbelow : ∀ u, some u ∈ t.slots → r.Normal u)
    {i : RuleId} {u : Template}
    (hfirst : RuleStore.firstOn (Pass.matcher r.config) t 0 r.sides = some (i, u, b)) :
    ∃ p v, (p, u) ∈ r.sides ∧ (Pass.matcher r.config).treeMatch true p.tree t [] = some b ∧
      r.NormalBindings b ∧ u.tree.instantiate b t.line = .ok v := by
  obtain ⟨p, hside, hmatch⟩ := RuleStore.exists_of_firstOn hfirst
  have hb : r.NormalBindings b :=
    normalBindings_of_match hside (h.closed _ hside) hbelow hmatch
  obtain ⟨v, hv⟩ := (h.compiled _ hside).exists_instance hmatch t.line
  exact ⟨p, v, hside, hmatch, hb, hv⟩

/-- Below the root of an instance of a template that settles nothing is left to do. -/
theorem normal_below_instance {k : Nat} (hsettles : settlesWithin r.sides k u = true)
    (hshape : u.hasShape = true) (hb : r.NormalBindings b) (hv : u.instantiate b line = .ok v) :
    r.Normal v ∨ (∀ t, some t ∈ v.slots → r.Normal t) ∧ ∀ side ∈ r.sides,
      side.1.tree.overlaps u = true → ∃ j, k = j + 1 ∧ settlesWithin r.sides j side.2.tree = true := by
  obtain ⟨line', label, slots⟩ := u
  rcases label.capture_or with ⟨name, rfl⟩ | hcapture
  · exact .inl (normal_of_spares rfl hshape hb hv)
  · right
    obtain ⟨hbelow, hmore⟩ := settlesWithin_node hcapture hsettles
    obtain ⟨vs, hvs, rfl⟩ := Tree.exists_slots_of_instance hcapture hshape hv
    refine ⟨fun t ht => ?_, hmore⟩
    obtain ⟨u, hu, hinstance⟩ := hvs.exists_of_mem ht
    exact normal_of_spares (sparesAll_of_mem hbelow hu) ((Tree.hasShape_node.mp hshape).1 u hu) hb
      hinstance

/-- The instance of a template that settles is rewritten at most so many times. -/
theorem rewrite_instance_ends (h : r.Settles n) {k apps : Nat}
    (hsettles : settlesWithin r.sides k u = true) (hshape : u.hasShape = true)
    (hb : r.NormalBindings b) (hv : u.instantiate b line = .ok v)
    (happs : apps + k ≤ r.config.maxRewritesPerNode) (w x : Nat) :
    ∃ result, Ends (fun bound => r.rewrite bound apps 0 v ⟨w, x⟩) result ∧
      result.2.rewrites ≤ w + k := by
  induction k using Nat.strongRecOn generalizing u b v line apps w x with
  | ind k ih =>
      have hinstance := normal_below_instance hsettles hshape hb hv
      have hbelow : ∀ t, some t ∈ v.slots → r.Normal t :=
        hinstance.elim (Normal.hereditary r).below And.left
      cases hfirst : RuleStore.firstOn (Pass.matcher r.config) v 0 r.sides with
      | none =>
          refine ⟨(v, ⟨w, x + Tree.sizeIn v.slots⟩),
            .of_succ (Tree.sizeIn v.slots) fun bound hbound => ?_, Nat.le_add_right w k⟩
          refine (rewrite_of_below h.depth hbelow hbound apps w x).trans ?_
          rw [settle, hfirst]
      | some found =>
          obtain ⟨i, u', b'⟩ := found
          have hmore := (hinstance.resolve_left fun hnormal => by
            rw [hnormal.firstOn] at hfirst
            cases hfirst).2
          obtain ⟨p, v', hside, hmatch, hb', hv'⟩ := exists_application h hbelow hfirst
          -- the pattern overlaps the template, so the next template settles one step earlier
          obtain ⟨j, rfl, hj⟩ :=
            hmore _ hside (Matcher.overlaps_of_treeMatch _ _ _ _ _ _ _ hshape hv hmatch)
          obtain ⟨result, ⟨enough, hresult⟩, hcount⟩ := ih j (Nat.lt_succ_self j) hj
            (h.compiled _ hside).shaped hb' hv' (by omega : apps + 1 + j ≤ _) (w + 1)
            (x + Tree.sizeIn v.slots)
          refine ⟨result, .of_succ (max enough (Tree.sizeIn v.slots)) fun bound hbound => ?_,
            by omega⟩
          have hle : Tree.sizeIn v.slots ≤ bound ∧ enough ≤ bound := by omega
          refine (rewrite_of_below h.depth hbelow hle.1 apps w x).trans ?_
          rw [settle_of_match hfirst (by omega) hv']
          exact hresult bound hle.2

/-- Children that are rewritten one after the other. -/
theorem visitSlots_ends {visit : Nat → Visitor} {factor : Nat} (hdepth : 0 < r.config.maxDepth)
    (hvisit : ∀ t, some t ∈ slots → ∀ s, ∃ result, Ends (fun bound => visit bound t s) result ∧
      result.2.rewrites ≤ s.rewrites + factor * t.size) (s : Summary) :
    ∃ result, Ends (fun bound => visitSlots (r.visitChild 0 (visit bound)) slots s) result ∧
      result.2.rewrites ≤ s.rewrites + factor * Tree.sizeIn slots := by
  induction slots generalizing s with
  | nil => exact ⟨([], s), ⟨0, fun _ _ => rfl⟩, Nat.le_add_right _ _⟩
  | cons o rest ih =>
      have hrest := ih fun t ht => hvisit t (List.mem_cons_of_mem _ ht)
      cases o with
      | none =>
          obtain ⟨⟨us, s'⟩, ⟨enough, hus⟩, hcount⟩ := hrest s
          refine ⟨(none :: us, s'), ⟨enough, fun bound hbound => ?_⟩, by simpa using hcount⟩
          have hslots : visitSlots (r.visitChild 0 (visit bound)) rest s = .ok (us, s') :=
            hus bound hbound
          dsimp only
          rw [visitSlots, hslots]
          rfl
      | some t =>
          obtain ⟨⟨u, s₁⟩, ⟨enough, hu⟩, hfirst⟩ :=
            hvisit t List.mem_cons_self ⟨s.rewrites, s.nodesVisited + 1⟩
          obtain ⟨⟨us, s₂⟩, ⟨enough', hus⟩, hcount⟩ := hrest s₁
          refine ⟨(some u :: us, s₂), ⟨max enough enough', fun bound hbound => ?_⟩, ?_⟩
          · have hle : enough ≤ bound ∧ enough' ≤ bound := by omega
            have hchild : r.visitChild 0 (visit bound) t s = .ok (u, s₁) := by
              rw [visitChild, if_neg (Nat.not_le_of_lt hdepth)]
              exact hu bound hle.1
            have hslots : visitSlots (r.visitChild 0 (visit bound)) rest s₁ = .ok (us, s₂) :=
              hus bound hle.2
            dsimp only
            rw [visitSlots, hchild, ok_bind]
            dsimp only
            rw [hslots]
            rfl
          · rw [Tree.sizeIn_some, Nat.mul_add]
            simp only at hfirst hcount ⊢
            omega

/-- Rules that settle are rewritten to the end, without an error, in a number of rewrites that is
linear in the size of the tree. -/
theorem rewrite_ends (h : r.Settles n) (t : Tree) (s : Summary) :
    ∃ result, Ends (fun bound => r.rewrite bound 0 0 t s) result ∧
      result.2.rewrites ≤ s.rewrites + (n + 1) * t.size := by
  induction t using Tree.induct generalizing s with
  | node line label slots ih =>
      have hdepth := h.depth
      have hlimit := h.limit
      obtain ⟨⟨us, s'⟩, ⟨enough, hus⟩, hcount⟩ :=
        visitSlots_ends (by omega : 0 < r.config.maxDepth) ih s
      have hbelow : ∀ u, some u ∈ (Tree.node line label us).slots → r.Normal u :=
        (visitSlots_ok (fun t s result h => rewrite_ok h) (hus enough (Nat.le_refl _))).1
      have hunfold (bound : Nat) (hbound : enough ≤ bound) :
          r.rewrite (bound + 1) 0 0 (.node line label slots) s =
            r.settle 0 (r.rewrite bound 1 0) (.node line label us) s' := by
        have hslots : visitSlots (r.visitChild 0 (r.rewrite bound 0 0)) slots s = .ok (us, s') :=
          hus bound hbound
        rw [rewrite, innerGrowth, if_neg (Nat.lt_irrefl 0), hslots]
        rfl
      rw [Tree.size_node, Nat.mul_add]
      simp only at hcount
      cases hfirst : RuleStore.firstOn (Pass.matcher r.config) (.node line label us) 0 r.sides with
      | none =>
          refine ⟨(.node line label us, s'), .of_succ enough fun bound hbound => ?_,
            (by omega : s'.rewrites ≤ _)⟩
          refine (hunfold bound hbound).trans ?_
          rw [settle, hfirst]
      | some found =>
          obtain ⟨i, u, b⟩ := found
          obtain ⟨p, v, hside, -, hb, hv⟩ := exists_application h hbelow hfirst
          obtain ⟨result, ⟨enough', hresult⟩, hcount'⟩ := rewrite_instance_ends h
            (h.settles _ hside) (h.compiled _ hside).shaped hb hv (by omega : 1 + n ≤ _)
            (s'.rewrites + 1) s'.nodesVisited
          refine ⟨result, .of_succ (max enough enough') fun bound hbound => ?_, by omega⟩
          have hle : enough ≤ bound ∧ enough' ≤ bound := by omega
          refine (hunfold bound hle.1).trans ?_
          rw [settle_of_match hfirst (by omega) hv]
          exact hresult bound hle.2

end Rewriter

end SnippetRewrite
