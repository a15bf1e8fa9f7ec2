import SnippetRewrite.Proofs.Rewrite.Refinement

/-!
The shape of the unit during a pass. In every state of a pass over a unit whose nodes form one tree,
the stack is a path in that tree: each position lies in a child slot of the next one out, behind
which are the children that this one has still to visit. A step moves along the path or exchanges
the subtree at its end, so that after each step the nodes form one tree again. Only the refusal of a
template leaves nodes without a parent behind.
-/

namespace SnippetRewrite

open Placement

namespace Context

theorem root_mem (ctx : Context) (hole : NodeId) :
    ctx.root hole = hole ∨ ctx.root hole ∈ (ctx.entries hole).map Entry.id := by
  induction ctx generalizing hole with
  | nil => exact Or.inl rfl
  | cons k ctx ih =>
      right
      rcases ih k.id with h | h
      · simp [root, entries, h]
      · simp only [root, entries, List.map_cons, List.map_append, List.mem_cons, List.mem_append]
        exact Or.inr (Or.inr h)

theorem entries_cons (k : Layer) (ctx : Context) (hole : NodeId) :
    entries (k :: ctx) hole = entries [k] hole ++ ctx.entries k.id := by
  simp [entries]

end Context

namespace Pass

variable {p q : Pass} {root : NodeId} {ctx : Context} {below : List Frame} {n : Placement}
  {rest : List (Option Placement)} {apps growth : Nat}

/-- The frames are those of the nodes around a subtree, the innermost first. -/
def Encloses (below : List Frame) (ctx : Context) : Prop :=
  List.Forall₂ (fun f k => f.id = k.id ∧ f.pending = childIds k.after) below ctx

/-- The innermost position is at `n`, where the children in `rest` are still to be visited, and the
nodes of the arena are those of `n` and of the context around it. -/
structure Inside (root : NodeId) (ctx : Context) (below : List Frame) (n : Placement)
    (rest : List (Option Placement)) (apps growth : Nat) (p : Pass) : Prop where
  slots : rest <:+ n.slots
  encloses : Encloses below ctx
  root_eq : ctx.root n.root = root
  position : p.At ⟨p.rewriter, root, below, ctx.entries n.root⟩ n rest apps growth

/-- The walk is over, and the nodes of the arena form one tree. -/
structure Over (root : NodeId) (l : Placement) (p : Pass) : Prop where
  stack : p.stack = []
  root_eq : l.root = root
  owns : p.arena.Owns l.entries
  root : p.arena.root = some root

/-- The stack is a path in the tree that the nodes of the arena form. -/
def Coherent (root : NodeId) (p : Pass) : Prop :=
  (∃ ctx below n rest apps growth, p.Inside root ctx below n rest apps growth) ∨ ∃ l, p.Over root l

/-- In a coherent state the nodes form one tree, whatever is on the stack. -/
theorem Coherent.exists_owns (h : p.Coherent root) :
    ∃ l : Placement, l.root = root ∧ p.arena.Owns l.entries ∧ p.arena.root = some root := by
  rcases h with ⟨ctx, below, n, rest, apps, growth, h⟩ | ⟨l, h⟩
  · refine ⟨ctx.fill n, ?_, ?_, h.position.root⟩
    · rw [Context.root_fill, h.root_eq]
    · exact h.position.owns.perm (Context.entries_fill ctx n).symm
  · exact ⟨l, h.root_eq, h.owns, h.root⟩

theorem exists_of_childIds {child : NodeId} {pending : List NodeId}
    (h : childIds rest = child :: pending) :
    ∃ before c after, rest = before ++ some c :: after ∧ c.root = child ∧
      childIds after = pending := by
  induction rest with
  | nil => simp at h
  | cons o rest ih =>
      cases o with
      | none =>
          obtain ⟨before, c, after, rfl, hc, hafter⟩ := ih h
          exact ⟨none :: before, c, after, rfl, hc, hafter⟩
      | some c =>
          simp only [childIds_some, List.cons.injEq] at h
          exact ⟨[], c, rest, rfl, h.1, h.2⟩

end Pass

/-- Where a step of a coherent pass leads. The refusal of a template is left out. -/
def Step.Coherent (root : NodeId) : Step → Prop
  | .going p => p.Coherent root
  | .finished p => p.Coherent root
  | .stopped (.shape _) _ => True
  | .stopped (.fault _) _ => False
  | .stopped _ p => p.Coherent root

namespace Pass

variable {p q : Pass} {root : NodeId} {ctx : Context} {below : List Frame} {n : Placement}
  {rest : List (Option Placement)} {apps growth : Nat}

theorem Inside.coherent (h : p.Inside root ctx below n rest apps growth) : p.Coherent root :=
  Or.inl ⟨_, _, _, _, _, _, h⟩

theorem exists_layer {c : Placement} {after : List (Option Placement)}
    (h : some c :: after <:+ n.slots) : ∃ k : Layer, n = k.fill c ∧ k.after = after := by
  obtain ⟨id, line, label, slots⟩ := n
  obtain ⟨before, hslots⟩ := h
  exact ⟨⟨id, line, label, before, after⟩, by rw [Layer.fill, hslots, Placement.slots], rfl⟩

/-- The step to the next child, or the refusal to go deeper. -/
theorem Inside.step_child {k : Layer} {c : Placement}
    (h : p.Inside root ctx below (k.fill c) (some c :: k.after) apps growth) :
    p.step.Coherent root := by
  have hc : p.arena.Holds c := h.position.holds.below.holds (by simp [Layer.fill, Placement.slots])
  by_cases hdepth : p.config.maxDepth ≤ Rewriter.innerGrowth apps growth
  · rw [(step_descend hc h.position.stack rfl).trans (if_pos hdepth)]
    exact h.coherent
  · obtain ⟨q, hstep, -, hq⟩ := h.position.descend hdepth
    have howns : q.arena.Owns (c.entries ++ Context.entries (k :: ctx) c.root) := by
      rw [Context.entries_cons]
      exact hq.owns
    rw [hstep]
    exact Inside.coherent
      { slots := List.suffix_refl _
        encloses := .cons ⟨rfl, rfl⟩ h.encloses
        root_eq := h.root_eq
        position := ⟨hq.stack, howns, rfl, hq.root, Context.entries_cons k ctx c.root ▸ hq.root_mem⟩ }

/-- Leaving a position: the walk goes on in the parent, behind the child that it comes from. -/
theorem Inside.leave (h : p.Inside root ctx below n rest apps growth) :
    Coherent root { p with stack := below } := by
  have howns := h.position.owns.perm (Context.entries_fill ctx n).symm
  cases hctx : ctx with
  | nil =>
      -- nothing encloses the root of the unit: the stack is empty now
      subst hctx
      cases h.encloses
      exact Or.inr ⟨n, rfl, h.root_eq, howns, h.position.root⟩
  | cons k ctx' =>
      subst hctx
      cases h.encloses with
      | @cons f _ below' _ hf hrest =>
          obtain ⟨id, pending, apps', growth'⟩ := f
          obtain ⟨rfl, rfl⟩ := hf
          have hparent : Inside root ctx' below' (k.fill n) k.after apps' growth'
              { p with stack := ⟨k.id, childIds k.after, apps', growth'⟩ :: below' } :=
            { slots := ⟨k.before ++ [some n], by simp [Layer.fill, Placement.slots]⟩
              encloses := hrest
              root_eq := h.root_eq
              position :=
                { stack := rfl
                  owns := howns.perm (Context.entries_fill ctx' (k.fill n))
                  rewriter := rfl
                  root := h.position.root
                  root_mem := h.root_eq ▸ Context.root_mem ctx' k.id } }
          exact hparent.coherent

theorem Inside.step_settle (h : p.Inside root ctx below n rest apps growth)
    (hrest : childIds rest = []) : p.step.Coherent root := by
  have hn := h.position.holds
  have hstack := h.position.stack
  rw [hrest] at hstack
  cases hfirst : RuleStore.firstOn (matcher p.config) n.tree 0 p.rules.sides with
  | none =>
      rw [step_leave hn hstack rfl rfl hfirst]
      exact h.leave
  | some found =>
      obtain ⟨i, u, s⟩ := found
      by_cases happs : apps = p.config.maxRewritesPerNode
      · rw [step_cycle hn hstack rfl rfl hfirst happs]
        exact h.coherent
      · have happly := step_apply h.position.owns h.position.root_notMem hstack rfl rfl hfirst happs
        cases hinstance : u.tree.instantiate s n.line with
        | error v =>
            rw [hinstance] at happly
            obtain ⟨q, hq⟩ := happly
            rw [hq]
            trivial
        | ok t =>
            rw [hinstance] at happly
            obtain ⟨m, q, hq, -, happlied⟩ := happly
            have hroot := happlied.root_eq
            have hqAt := h.position.applied (by rw [hrest]; exact happlied)
            rw [hq]
            exact Inside.coherent
              { slots := List.suffix_refl _
                encloses := h.encloses
                root_eq := hroot ▸ h.root_eq
                position := by
                  rw [hroot, hqAt.rewriter]
                  exact hqAt }

/-- The invariant of a pass: one step keeps it. -/
theorem Coherent.step (h : p.Coherent root) : p.step.Coherent root := by
  rcases h with ⟨ctx, below, n, rest, apps, growth, h⟩ | ⟨l, h⟩
  · cases hrest : childIds rest with
    | nil => exact h.step_settle hrest
    | cons child pending =>
        obtain ⟨before, c, after, rfl, rfl, rfl⟩ := exists_of_childIds hrest
        obtain ⟨k, rfl, rfl⟩ := exists_layer ((List.suffix_append _ _).trans h.slots)
        have hnext : p.Inside root ctx below (k.fill c) (some c :: k.after) apps growth :=
          { slots := (List.suffix_append _ _).trans h.slots
            encloses := h.encloses
            root_eq := h.root_eq
            position := { h.position with stack := by rw [h.position.stack, hrest]; rfl } }
        exact hnext.step_child
  · have hstep : p.step = .finished p := by simp [Pass.step, h.stack]
    rw [hstep]
    exact Or.inr ⟨l, h⟩

/-- The invariant of a pass: a run keeps it. -/
theorem Coherent.run (h : p.Coherent root) (steps : Nat) : (p.run steps).Coherent root := by
  induction steps generalizing p with
  | zero => exact h
  | succ steps ih =>
      have hstep := h.step
      rw [Pass.run]
      cases hq : p.step with
      | going q =>
          rw [hq] at hstep
          exact ih hstep
      | finished q =>
          rw [hq] at hstep
          exact hstep
      | stopped e q =>
          rw [hq] at hstep
          exact hstep

end Pass

namespace Engine

variable {e : Engine} {a : Arena} {root : NodeId}

theorem coherent_entered {l : Placement} (ha : a.Owns l.entries) (hroot : a.root = some l.root) :
    (e.entered a l).Coherent l.root := by
  have hinside : (e.entered a l).Inside l.root [] [] l l.slots 0 0 :=
    { slots := List.suffix_refl _
      encloses := .nil
      root_eq := rfl
      position :=
        { stack := rfl
          owns := by
            rw [Context.entries, List.append_nil]
            exact ha
          rewriter := rfl
          root := hroot
          root_mem := Or.inl rfl } }
  exact hinside.coherent

/-- What is reported of a coherent end of a run, unless the shape of a template is refused there. -/
theorem exists_owns_of_coherent {s : Step} (h : s.Coherent root) :
    (∀ f, (e.outcome s).result ≠ .error (.fault f)) ∧
      ((∀ v, (e.outcome s).result ≠ .error (.shape v)) →
        ∃ l : Placement, l.root = root ∧ (e.outcome s).arena.Owns l.entries ∧
          (e.outcome s).arena.root = some root) := by
  cases s with
  | going p => exact ⟨by simp [outcome, finish], fun _ => Pass.Coherent.exists_owns h⟩
  | finished p => exact ⟨by simp [outcome, finish], fun _ => Pass.Coherent.exists_owns h⟩
  | stopped x p =>
      cases x with
      | shape v => exact ⟨by simp [outcome, finish], fun hshape => (hshape v rfl).elim⟩
      | fault f => exact h.elim
      | _ => exact ⟨by simp [outcome, finish], fun _ => Pass.Coherent.exists_owns h⟩

/-- What a pass leaves, unless a shape was refused, is one placement at the old root. -/
theorem exists_owns_processWithin (h : a.TreeShaped root) (steps : Nat) :
    (∀ f, (e.processWithin steps a).result ≠ .error (.fault f)) ∧
      ((∀ v, (e.processWithin steps a).result ≠ .error (.shape v)) →
        ∃ l : Placement, l.root = root ∧ (e.processWithin steps a).arena.Owns l.entries ∧
          (e.processWithin steps a).arena.root = some root) := by
  obtain ⟨l, rfl, ha⟩ := h.exists_owns
  by_cases hrules : e.rules.size = 0
  · rw [processWithin_of_noRules hrules]
    exact ⟨by simp, fun _ => ⟨l, rfl, ha, h.root_eq⟩⟩
  · have hrun := (coherent_entered (e := e) ha h.root_eq).run steps
    rw [processWithin_eq ha.holds_all h.root_eq hrules]
    exact exists_owns_of_coherent (e := e) hrun

/-- A pass never damages the unit. Cut off after any number of steps, or ended by itself, it leaves
the root where it was and the nodes in the form of one tree, with exactly the slots without a node
on the free list, and it never meets a slot without a node. The one exception is a template whose
shape is refused. -/
theorem processWithin_treeShaped (h : a.TreeShaped root) (steps : Nat) :
    (∀ f, (e.processWithin steps a).result ≠ .error (.fault f)) ∧
      ((∀ v, (e.processWithin steps a).result ≠ .error (.shape v)) →
        (e.processWithin steps a).arena.TreeShaped root ∧
          ∃ t, (e.processWithin steps a).arena.tree root = .ok t ∧
            (e.processWithin steps a).arena.liveCount = t.size) := by
  obtain ⟨hfault, howns⟩ := exists_owns_processWithin (e := e) h steps
  refine ⟨hfault, fun hshape => ?_⟩
  obtain ⟨l, rfl, hl, hroot⟩ := howns hshape
  refine ⟨hl.treeShaped hroot, l.tree, hl.holds_all.tree_eq, ?_⟩
  rw [hl.liveCount_eq, l.size_tree]

/-- Right after a rewrite, with the visit of the new subtree still to come. -/
theorem dropZero_treeShaped :
    ∃ root, (Arena.ofTree "unit" sumTree).TreeShaped root ∧
      (dropZero.processWithin 6 (.ofTree "unit" sumTree)).arena.TreeShaped root := by
  obtain ⟨root, hshape, -⟩ := Arena.ofTree_treeShaped "unit" (t := sumTree) (by decide)
  have hcut : (dropZero.processWithin 6 (.ofTree "unit" sumTree)).result = .error .unfinished := by
    decide +kernel
  exact ⟨root, hshape, ((processWithin_treeShaped hshape 6).2 (by simp [hcut])).1⟩

end Engine

end SnippetRewrite
