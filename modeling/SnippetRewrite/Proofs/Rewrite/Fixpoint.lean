import SnippetRewrite.Proofs.Rewrite.Refinement

/-!
Normal forms. A tree is in normal form if no rule matches at any of its nodes. Rewriting that
succeeds ends in a normal form: what was rewritten already is not looked at again, but it can only
be moved as a whole or fall under an instance that is visited anew. Rewriting a normal form visits
each of its nodes once and changes nothing, and the pass over it leaves the arena untouched.
-/

namespace SnippetRewrite

namespace Rewriter

variable {r : Rewriter} {bound apps growth : Nat} {t u : Tree} {s s' : Summary}
  {slots us : List (Option Tree)}

inductive Normal (r : Rewriter) : Tree → Prop
  | node {line : Nat} {label : Label} {slots : List (Option Tree)}
      (below : ∀ t, some t ∈ slots → Normal r t)
      (here : RuleStore.firstOn (Pass.matcher r.config) (.node line label slots) 0 r.sides = none) :
      Normal r (.node line label slots)

/-- A depth of zero admits no children at all. -/
def Admits (r : Rewriter) (slots : List (Option Tree)) : Prop :=
  0 < r.config.maxDepth ∨ ∀ t, some t ∉ slots

/-- What is known of a tree that a visit gives: it is in normal form, its nodes were counted, and
its children are admitted. -/
structure Settled (r : Rewriter) (before : Nat) (result : Tree × Summary) : Prop where
  normal : r.Normal result.1
  size : before + result.1.size ≤ result.2.nodesVisited + 1
  admits : r.Admits result.1.slots

theorem visitSlots_ok {visit : Visitor}
    (hvisit : ∀ t s result, visit t s = .ok result → r.Settled s.nodesVisited result)
    (h : visitSlots (r.visitChild growth visit) slots s = .ok (us, s')) :
    (∀ u, some u ∈ us → r.Normal u) ∧ s.nodesVisited + Tree.sizeIn us ≤ s'.nodesVisited ∧
      r.Admits us := by
  induction slots generalizing s us s' with
  | nil =>
      cases h
      exact ⟨by simp, by simp, Or.inr (by simp)⟩
  | cons o rest ih =>
      cases o with
      | none =>
          obtain ⟨⟨vs, s₁⟩, hrest, h⟩ := bind_eq_ok.mp h
          cases h
          obtain ⟨hnormal, hsize, hadmits⟩ := ih hrest
          exact ⟨by simpa using hnormal, by simpa using hsize, by simpa [Admits] using hadmits⟩
      | some t =>
          obtain ⟨⟨v, s₁⟩, hfirst, h⟩ := bind_eq_ok.mp h
          obtain ⟨⟨vs, s₂⟩, hrest, h⟩ := bind_eq_ok.mp h
          cases h
          obtain ⟨hnormal, hsize, -⟩ := ih hrest
          simp only [visitChild] at hfirst
          split at hfirst
          · cases hfirst
          · rename_i hdepth
            obtain ⟨hv, hvsize, -⟩ := hvisit _ _ _ hfirst
            refine ⟨?_, ?_, Or.inl (by omega)⟩
            · intro u hu
              rcases List.mem_cons.mp hu with heq | hu
              · cases heq
                exact hv
              · exact hnormal u hu
            · simp only [Tree.sizeIn_some] at hvsize ⊢
              omega

/-- Rewriting that succeeds ends in a normal form. -/
theorem rewrite_ok {result : Tree × Summary}
    (h : r.rewrite bound apps growth t s = .ok result) : r.Settled s.nodesVisited result := by
  induction bound generalizing apps growth t s result with
  | zero => cases h
  | succ bound ih =>
      obtain ⟨line, label, slots⟩ := t
      obtain ⟨⟨us, s₁⟩, hslots, h⟩ := bind_eq_ok.mp h
      obtain ⟨hnormal, hsize, hadmits⟩ := visitSlots_ok (fun t s result h => ih h) hslots
      simp only [settle] at h
      split at h
      · rename_i hfirst
        cases h
        refine ⟨.node hnormal hfirst, ?_, hadmits⟩
        simp only [Tree.size_node]
        omega
      · split at h
        · cases h
        · split at h
          · cases h
          · -- the instance is visited anew, so nothing has to be known of it
            obtain ⟨hnormal', hsize', hadmits'⟩ := ih h
            refine ⟨hnormal', ?_, hadmits'⟩
            simp only at hsize'
            omega

theorem visitSlots_of_normal {visit : Visitor}
    (hdepth : growth < r.config.maxDepth ∨ ∀ t, some t ∉ slots)
    (hvisit : ∀ t, some t ∈ slots → ∀ w v, visit t ⟨w, v + 1⟩ = .ok (t, ⟨w, v + t.size⟩))
    (w v : Nat) :
    visitSlots (r.visitChild growth visit) slots ⟨w, v⟩ =
      .ok (slots, ⟨w, v + Tree.sizeIn slots⟩) := by
  induction slots generalizing v with
  | nil => rfl
  | cons o rest ih =>
      have hrest := ih (hdepth.imp_right fun h t ht => h t (List.mem_cons_of_mem _ ht))
        fun t ht => hvisit t (List.mem_cons_of_mem _ ht)
      cases o with
      | none => simp [visitSlots, hrest]
      | some t =>
          have hlt : growth < r.config.maxDepth :=
            hdepth.resolve_right fun h => h t List.mem_cons_self
          have hfirst := hvisit t List.mem_cons_self w v
          simp [visitSlots, visitChild, Nat.not_le_of_lt hlt, hfirst, hrest, Nat.add_assoc]

/-- Rewriting a normal form visits each of its nodes and changes nothing. -/
theorem rewrite_of_normal (hnormal : r.Normal t) (hadmits : r.Admits t.slots)
    (hbound : t.size ≤ bound) (growth w v : Nat) :
    r.rewrite bound 0 growth t ⟨w, v + 1⟩ = .ok (t, ⟨w, v + t.size⟩) := by
  induction bound generalizing t growth w v with
  | zero =>
      have := t.size_pos
      omega
  | succ bound ih =>
      cases hnormal with
      | @node line label slots hbelow hhere =>
          simp only [Tree.slots] at hadmits
          have hvisit (t : Tree) (ht : some t ∈ slots) (w v : Nat) :
              r.rewrite bound 0 0 t ⟨w, v + 1⟩ = .ok (t, ⟨w, v + t.size⟩) := by
            have hdepth := hadmits.resolve_right fun h => h t ht
            refine ih (hbelow t ht) (Or.inl hdepth) ?_ 0 w v
            have := Tree.size_le_sizeIn ht
            rw [Tree.size_node] at hbound
            omega
          have hslots := visitSlots_of_normal hadmits hvisit w (v + 1)
          simp [rewrite, innerGrowth, hslots, settle, hhere, Tree.size_node, Nat.add_assoc]

end Rewriter

namespace RuleStore

theorem treeMatch_of_firstOn_none {m : Matcher} {t : Tree} {id : RuleId}
    {sides : List (Pattern × Template)} (h : firstOn m t id sides = none) {p : Pattern}
    {u : Template} (hp : (p, u) ∈ sides) : m.treeMatch true p.tree t [] = none := by
  induction sides generalizing id with
  | nil => simp at hp
  | cons x rest ih =>
      obtain ⟨p', u'⟩ := x
      rw [firstOn] at h
      split at h
      · cases h
      · rename_i hnone
        rcases List.mem_cons.mp hp with heq | hp
        · cases heq
          exact hnone
        · exact ih h hp

end RuleStore

namespace Engine

open Placement

variable {e : Engine} {a : Arena} {l m : Placement} {r : Rewriter}

theorem exists_normal {id : NodeId} (hnormal : r.Normal l.tree) (ha : a.Holds l) (hid : id ∈ l.ids) :
    ∃ m : Placement, m.root = id ∧ a.Holds m ∧ r.Normal m.tree := by
  induction l using induct with
  | node root line label slots ih =>
      rcases List.mem_cons.mp hid with rfl | hid
      · exact ⟨_, rfl, ha, hnormal⟩
      · obtain ⟨c, hc, hidc⟩ := mem_idsIn.mp hid
        have hmem : some c.tree ∈ treesIn slots := by
          rw [treesIn_eq_map]
          exact List.mem_map.mpr ⟨some c, hc, rfl⟩
        cases hnormal with
        | node hbelow hhere => exact ih c hc (hbelow _ hmem) (ha.below.holds hc) hidc

/-- What a pass that ends well has left: a tree in normal form that is small enough to be walked
through in so many steps. -/
structure Normalized (e : Engine) (a : Arena) (root : NodeId) (steps : Nat) (m : Placement)
    (q : Pass) : Prop where
  root_eq : m.root = root
  owns : q.arena.Owns m.entries
  root : q.arena.root = some root
  rewriter : q.rewriter = e.rewriter a.origin
  normal : q.rewriter.Normal m.tree
  admits : q.rewriter.Admits m.tree.slots
  steps : 2 * m.tree.size ≤ steps

theorem exists_normalized (ha : a.Owns l.entries) (hroot : a.root = some l.root)
    (hrules : e.rules.size ≠ 0) {steps : Nat} {s : Summary}
    (hok : (e.processWithin steps a).result = .ok s) :
    ∃ m q, e.processWithin steps a = e.finish (.ok s) q ∧ Normalized e a l.root steps m q := by
  have hsim := rewriteUnit_simulates (e := e) ha hroot steps
  rw [processWithin_eq ha.holds_all hroot hrules] at hok ⊢
  cases hend : (e.entered a l).run steps with
  | going q =>
      rw [hend] at hok
      cases hok
  | stopped x q =>
      rw [hend] at hok
      cases hok
  | finished x =>
      rw [hend] at hok
      cases hok
      obtain ⟨result, k, q, houtcome, hlt, hk, m, hm, htree, hleft, hsummary⟩ := hsim.of_finished hend
      have hx := (Pass.run_of_left hk hleft.stack hlt).symm.trans hend
      cases hx
      obtain ⟨hnormal, hsize, hadmits⟩ := Rewriter.rewrite_ok houtcome
      have hmeasure := Pass.run_measure hk
      rw [← htree] at hnormal hsize hadmits
      refine ⟨m, x, rfl, hm, ?_, hleft.root, hleft.rewriter, ?_, ?_, ?_⟩
      · rw [← List.append_nil m.entries]
        exact hleft.owns
      · rw [hleft.rewriter]
        exact hnormal
      · rw [hleft.rewriter]
        exact hadmits
      · simp only [entered, hleft.stack, hsummary, List.length_cons, List.length_nil] at hmeasure hsize
        omega

/-- A pass over a normal form changes nothing. -/
theorem processWithin_of_normal (ha : a.Owns m.entries) (hroot : a.root = some m.root)
    (hrules : e.rules.size ≠ 0) (hnormal : (e.rewriter a.origin).Normal m.tree)
    (hadmits : (e.rewriter a.origin).Admits m.tree.slots) {steps : Nat}
    (hsteps : 2 * m.tree.size ≤ steps) :
    e.processWithin steps a = ⟨.ok ⟨0, m.tree.size⟩, e, a⟩ := by
  have hsim := rewriteUnit_simulates (e := e) ha hroot m.tree.size
  have hsame := Rewriter.rewrite_of_normal hnormal hadmits (Nat.le_refl _) 0 0 0
  rw [Nat.zero_add, Nat.zero_add] at hsame
  rw [Rewriter.rewriteUnit, hsame] at hsim
  obtain ⟨k, q, hk, n, -, -, hleft, hsummary⟩ := hsim
  have hmeasure := Pass.run_measure hk
  simp only [entered, hleft.stack, hsummary, List.length_cons, List.length_nil] at hmeasure
  rw [processWithin_eq ha.holds_all hroot hrules,
    Pass.run_of_left hk hleft.stack (by omega)]
  have hquiet := Pass.quiet_of_run hk (by rw [hsummary]; rfl)
  have hrules' : q.rules = e.rules := hquiet.rules
  have htrace : q.trace = e.trace := hquiet.trace
  have harena : q.arena = a := hquiet.arena
  simp only [outcome, finish, hrules', htrace, harena, hsummary]

/-- A pass that ends well ends in a fixpoint: no pattern of a rule matches at any node that it has
left, and a second pass visits each node once and leaves the engine and the unit as they are. -/
theorem processWithin_fixpoint {root : NodeId} {steps : Nat} {s : Summary} {e' : Engine} {b : Arena}
    (h : a.TreeShaped root) (hrules : e.rules.size ≠ 0)
    (hok : e.processWithin steps a = ⟨.ok s, e', b⟩) :
    (∀ id, b.contains id → ∀ rule ∈ e.rules.rules,
        (Pass.matcher e.config).run rule.pattern b id = .ok none) ∧
      ∃ t, b.tree root = .ok t ∧
        ∀ more, steps ≤ more → e'.processWithin more b = ⟨.ok ⟨0, t.size⟩, e', b⟩ := by
  obtain ⟨l, rfl, ha⟩ := h.exists_owns
  obtain ⟨m, q, hend, hq⟩ := exists_normalized ha h.root_eq hrules (by rw [hok])
  rw [hok, finish, Processed.mk.injEq] at hend
  obtain ⟨-, rfl, rfl⟩ := hend
  have hconfig : q.config = e.config := congrArg Rewriter.config hq.rewriter
  have hsides : q.rules.sides = e.rules.sides := congrArg Rewriter.sides hq.rewriter
  have hm : q.arena.Holds m := hq.owns.holds_all
  refine ⟨fun id hid rule hrule => ?_, m.tree, hq.root_eq ▸ hm.tree_eq, fun more hmore => ?_⟩
  · obtain ⟨n, rfl, hn, hnormal⟩ := exists_normal hq.normal hm (hq.owns.covers id hid)
    cases hnode : n.tree with
    | node line label slots =>
        rw [hnode] at hnormal
        cases hnormal with
        | node hbelow hhere =>
            refine Matcher.run_of_none hn ?_
            have hmem : rule.sides ∈ e.rules.sides := List.mem_map_of_mem hrule
            rw [hnode, ← hconfig]
            exact RuleStore.treeMatch_of_firstOn_none hhere (hsides ▸ hmem)
  · have hrewriter : ({ e with rules := q.rules, trace := q.trace } : Engine).rewriter
        q.arena.origin = q.rewriter := by
      rw [Engine.rewriter, Pass.rewriter, hconfig]
    have hsize : q.rules.size ≠ 0 := by
      rw [← RuleStore.length_sides, hsides, RuleStore.length_sides]
      exact hrules
    refine processWithin_of_normal hq.owns (hq.root.trans (congrArg some hq.root_eq.symm)) hsize ?_ ?_
      (Nat.le_trans hq.steps hmore)
    · rw [hrewriter]
      exact hq.normal
    · rw [hrewriter]
      exact hq.admits

theorem dropZero_fixpoint :
    ∃ (e' : Engine) (b : Arena) (t : Tree),
      dropZero.processWithin 9 (.ofTree "unit" sumTree) = ⟨.ok ⟨1, 4⟩, e', b⟩ ∧
        e'.processWithin 9 b = ⟨.ok ⟨0, t.size⟩, e', b⟩ := by
  obtain ⟨root, hshape, -⟩ := Arena.ofTree_treeShaped "unit" (t := sumTree) (by decide)
  have hrules : dropZero.rules.size ≠ 0 := by decide +kernel
  have hresult : (dropZero.processWithin 9 (.ofTree "unit" sumTree)).result = .ok ⟨1, 4⟩ := by
    decide +kernel
  have hok : dropZero.processWithin 9 (.ofTree "unit" sumTree) =
      ⟨.ok ⟨1, 4⟩, (dropZero.processWithin 9 (.ofTree "unit" sumTree)).engine,
        (dropZero.processWithin 9 (.ofTree "unit" sumTree)).arena⟩ := by
    rw [← hresult]
  obtain ⟨-, t, -, hagain⟩ := processWithin_fixpoint hshape hrules hok
  exact ⟨_, _, t, hok, hagain 9 (Nat.le_refl _)⟩

end Engine

end SnippetRewrite
