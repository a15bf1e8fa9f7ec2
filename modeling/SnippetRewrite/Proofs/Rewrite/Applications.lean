import SnippetRewrite.Proofs.Rewrite.Integrity
import SnippetRewrite.Proofs.Rule.Compiled

/-!
Applications of rules. Whatever rules an engine has accepted, and whatever passes it has made, the
next pass over a unit never comes to refuse the shape of a node: where a rule is applied, the match
has bound the captures of its pattern to nodes below the position, these are all the captures that
the template has, and the instance takes the place of what was found.
-/

namespace SnippetRewrite

open Placement

/-- The state that a step leads to, whether the pass goes on or not. -/
def Step.pass : Step → Pass
  | .going p | .finished p | .stopped _ p => p

/-- Nodes that an arena holds have the children that their kinds ask for. -/
theorem Arena.Holds.hasShape {a : Arena} {l : Placement} (h : a.Holds l) :
    l.tree.hasShape = true := by
  induction l using Placement.induct with
  | node id line label slots ih =>
      obtain ⟨c, -, hfits, -, hlabel, hused⟩ := h.cell
      refine Tree.hasShape_node.mpr ⟨fun t ht => ?_, fun n hn => ?_⟩
      · obtain ⟨m, hm, rfl⟩ := exists_of_mem_treesIn ht
        exact ih m hm (h.below.holds hm)
      · have hcount : c.childCount = n := by
          rw [Cell.childCount, hlabel, Placement.label, hn, Option.getD_some]
        rw [length_treesIn, ← hcount, hfits.childCount_eq hused]
        rfl

theorem Arena.Bound.exists_of_name {a : Arena} {ids : List NodeId} {b : Bindings}
    {s : TreeBindings} {name : String} (h : a.Bound ids b s) (hname : name ∈ b.map (·.1)) :
    (∃ id, b.get? name = some id) ∧ ∃ t, s.get? name = some t := by
  rcases h.get? name with ⟨-, hs⟩ | ⟨id, t, hb, hs, -⟩
  · exact absurd (h.names_eq ▸ hname) (TreeBindings.get?_eq_none.mp hs)
  · exact ⟨⟨id, hb⟩, t, hs⟩

namespace RuleStore

/-- The rule that is found is one of those looked at, and its pattern matches. -/
theorem mem_of_firstAmong {m : Matcher} {a : Arena} {node : NodeId} {rules : List Rule}
    {id i : RuleId} {r : Rule} {b : Bindings}
    (h : firstAmong m a node id rules = .ok (some (i, r, b))) :
    r ∈ rules ∧ m.run r.pattern a node = .ok (some b) := by
  induction rules generalizing id with
  | nil => cases h
  | cons x rest ih =>
      obtain ⟨o, hrun, h⟩ := bind_eq_ok.mp h
      cases o with
      | some c =>
          cases h
          exact ⟨List.mem_cons_self, hrun⟩
      | none =>
          obtain ⟨hmem, hrest⟩ := ih h
          exact ⟨List.mem_cons_of_mem _ hmem, hrest⟩

end RuleStore

namespace Pass

variable {p q : Pass} {root : NodeId} {f : Frame} {below : List Frame} {i : RuleId} {r : Rule}
  {b : Bindings} {n : Placement} {es : List Entry}

/-- The next step applies a rule at the innermost position. -/
structure Applies (p : Pass) (f : Frame) (below : List Frame) (i : RuleId) (r : Rule)
    (b : Bindings) : Prop where
  stack : p.stack = f :: below
  pending : f.pending = []
  first : p.rules.firstMatch (matcher p.config) p.arena f.id = .ok (some (i, r, b))
  limit : f.applications ≠ p.config.maxRewritesPerNode

theorem Applies.sides_mem (h : p.Applies f below i r b) : r.sides ∈ p.rules.sides :=
  List.mem_map_of_mem (RuleStore.mem_of_firstAmong h.first).1

/-- What it takes for an application to succeed. -/
structure Succeeds (p : Pass) (f : Frame) (below : List Frame) (i : RuleId) (r : Rule)
    (b : Bindings) : Prop where
  /-- The match binds the captures of the pattern and no others. -/
  captures : b.map (·.1) = r.pattern.captures
  /-- Bound nodes are live and lie below the position. -/
  inside : ∀ x ∈ b, p.arena.contains x.2 ∧ ∃ path, p.arena.follow f.id path = some x.2
  /-- The captures of the template are bound. -/
  bound : ∀ name ∈ r.template.captures, ∃ id, b.get? name = some id
  /-- The template is rebuilt, each node with the children that its kind asks for, and what was
  found is replaced. -/
  replaced : ∃ line id a t a', p.arena.line f.id = .ok line ∧
    r.template.instantiate b line p.arena = .ok id a ∧ a.tree id = .ok t ∧ t.hasShape = true ∧
      Edit.replaceWith f.id id a = .ok () a'
  /-- The pass goes on. -/
  going : ∃ q, p.step = .going q

/-! ### Steps and rules -/

theorem step_eq_apply (h : p.Applies f below i r b) : p.step = p.apply f below i r b := by
  simp only [step, h.stack, h.pending, h.first, h.limit, if_false]

/-- A step applies a rule, or has nothing to do with the shape of nodes, with the rules and with the
count of rewrites. -/
theorem applies_or (p : Pass) :
    (∃ f below i r b, p.Applies f below i r b) ∨
      (∀ v q, p.step ≠ .stopped (.shape v) q) ∧ p.step.pass.rules = p.rules ∧
        p.step.pass.summary.rewrites = p.summary.rewrites := by
  have htakes := p.takes_step
  generalize p.step = s at htakes ⊢
  cases htakes with
  | apply f below i r b hstack hpending hfirst hlimit =>
      exact .inl ⟨f, below, i, r, b, hstack, hpending, hfirst, hlimit⟩
  | _ => exact .inr ⟨by simp, rfl, rfl⟩

theorem sides_apply (p : Pass) (f : Frame) (below : List Frame) (i : RuleId) (r : Rule)
    (b : Bindings) : (p.apply f below i r b).pass.rules.sides = p.rules.sides := by
  have happly := p.attempts_apply f below i r b
  generalize p.apply f below i r b = s at happly ⊢
  cases happly with
  | going => exact RuleStore.sides_recordHit p.rules i
  | stopped _ q hrules =>
      show q.rules.sides = p.rules.sides
      rcases hrules with hrules | hrules
      · rw [hrules]
      · rw [hrules, RuleStore.sides_recordHit]

theorem sides_step (p : Pass) : p.step.pass.rules.sides = p.rules.sides := by
  rcases p.applies_or with ⟨f, below, i, r, b, h⟩ | ⟨-, h, -⟩
  · rw [step_eq_apply h]
    exact p.sides_apply f below i r b
  · rw [h]

/-- What holds of the pass after each step, however that ends, holds after a run. -/
theorem pass_run_keeps {P : Pass → Prop} (hsteps : ∀ p, P p → P p.step.pass) (hp : P p)
    (steps : Nat) : P (p.run steps).pass := by
  induction steps generalizing p with
  | zero => exact hp
  | succ steps ih =>
      have hnext := hsteps p hp
      rw [run]
      cases hstep : p.step with
      | going q =>
          rw [hstep] at hnext
          exact ih hnext
      | finished q =>
          rw [hstep] at hnext
          exact hnext
      | stopped e q =>
          rw [hstep] at hnext
          exact hnext

theorem sides_run (p : Pass) (steps : Nat) : (p.run steps).pass.rules.sides = p.rules.sides :=
  pass_run_keeps (P := fun x => x.rules.sides = p.rules.sides)
    (fun x hx => x.sides_step.trans hx) rfl steps

/-- Rewrites that are counted come from applications. -/
theorem exists_applies_of_rewrites {steps : Nat}
    (h : p.summary.rewrites < (p.run steps).pass.summary.rewrites) :
    ∃ k q f below i r b, p.run k = .going q ∧ q.Applies f below i r b := by
  induction steps generalizing p with
  | zero => exact absurd h (Nat.lt_irrefl _)
  | succ steps ih =>
      rcases p.applies_or with ⟨f, below, i, r, b, happlies⟩ | ⟨-, -, hsame⟩
      · exact ⟨0, p, f, below, i, r, b, rfl, happlies⟩
      · rw [run] at h
        cases hstep : p.step with
        | going x =>
            rw [hstep] at h hsame
            obtain ⟨k, q, f, below, i, r, b, hk, happlies⟩ := ih (hsame ▸ h)
            exact ⟨k + 1, q, f, below, i, r, b, by rw [run, hstep]; exact hk, happlies⟩
        | finished x =>
            rw [hstep] at h hsame
            exact absurd (hsame ▸ h) (Nat.lt_irrefl _)
        | stopped x q =>
            rw [hstep] at h hsame
            exact absurd (hsame ▸ h) (Nat.lt_irrefl _)

/-! ### Applications -/

/-- An application that is due, seen in the tree: the subtree `n` at the end of the path matches the
pattern. -/
structure Due (p : Pass) (root : NodeId) (f : Frame) (below : List Frame) (r : Rule) (b : Bindings)
    (ctx : Context) (n : Placement) (s : TreeBindings) : Prop where
  id_eq : f.id = n.root
  inside : ∃ rest, p.Inside root ctx below n rest f.applications f.growth
  matched : (matcher p.config).treeMatch true r.pattern.tree n.tree [] = some s
  bound : p.arena.Bound n.ids b s

namespace Due

variable {ctx : Context} {s : TreeBindings}

theorem owns (h : p.Due root f below r b ctx n s) :
    p.arena.Owns (n.entries ++ ctx.entries n.root) := by
  obtain ⟨rest, hinside⟩ := h.inside
  exact hinside.position.owns

theorem holds (h : p.Due root f below r b ctx n s) : p.arena.Holds n :=
  h.owns.holds

theorem root_notMem (h : p.Due root f below r b ctx n s) :
    ∀ x, p.arena.root = some x → x ∉ idsIn n.slots := by
  obtain ⟨rest, hinside⟩ := h.inside
  exact hinside.position.root_notMem

end Due

theorem Coherent.exists_due (hp : p.Coherent root) (h : p.Applies f below i r b) :
    ∃ ctx n s, p.Due root f below r b ctx n s := by
  rcases hp with ⟨ctx, below', n, rest, apps, growth, hinside⟩ | ⟨l, hover⟩
  · have hn : p.arena.Holds n := hinside.position.holds
    obtain ⟨-, hrun⟩ := RuleStore.mem_of_firstAmong h.first
    cases h.stack.symm.trans hinside.position.stack
    cases hs : (matcher p.config).treeMatch true r.pattern.tree n.tree [] with
    | none => cases (Matcher.run_of_none hn hs).symm.trans hrun
    | some s =>
        obtain ⟨b', hb', hbound⟩ := Matcher.run_of_some hn hs
        cases hb'.symm.trans hrun
        exact ⟨ctx, n, s, rfl, ⟨rest, hinside⟩, hs, hbound⟩
  · cases hover.stack.symm.trans h.stack

/-- An application that has been made, seen in the tree: an instance `m` of the template has taken
the place of the subtree that was matched. -/
structure Exchanges (p q : Pass) (root : NodeId) (f : Frame) (below : List Frame) (i : RuleId)
    (r : Rule) (b : Bindings) (ctx : Context) (n m : Placement) (s : TreeBindings) : Prop where
  due : p.Due root f below r b ctx n s
  instance_eq : r.template.tree.instantiate s n.line = .ok m.tree
  step : p.step = .going q
  applied : p.Applied q f below i n m (ctx.entries n.root)

theorem Coherent.exists_exchanges (hp : p.Coherent root) (hr : Compiled r.pattern r.template)
    (h : p.Applies f below i r b) : ∃ q ctx n m s, p.Exchanges q root f below i r b ctx n m s := by
  obtain ⟨ctx, n, s, hdue⟩ := hp.exists_due h
  obtain ⟨t, ht⟩ := hr.exists_instance hdue.matched n.line
  have happly := @apply_eq p _ n f below i r b s _ hdue.owns hdue.root_notMem hdue.id_eq hdue.bound
  rw [ht] at happly
  obtain ⟨m, q, hq, rfl, happlied⟩ := happly
  exact ⟨q, ctx, n, m, s, hdue, ht, (step_eq_apply h).trans hq, happlied⟩

/-- Where a rule applies whose sides were compiled, its application succeeds. -/
theorem Coherent.succeeds (hp : p.Coherent root) (hr : Compiled r.pattern r.template)
    (h : p.Applies f below i r b) : p.Succeeds f below i r b := by
  obtain ⟨q, ctx, n, m, s, hdue, hinstance, hstep, -⟩ := hp.exists_exchanges hr h
  have hn := hdue.holds
  have hnames : b.map (·.1) = r.pattern.captures := by
    rw [hdue.bound.names_eq, Matcher.treeMatch_names _ _ _ _ _ _ hdue.matched, hr.pattern_captures]
    rfl
  -- the template is built where the step builds it
  obtain ⟨l, c, hbuild, -, howns, hgrown⟩ : Edit.Adds _ _ _ m.tree := by
    have hyields := Template.build_yields n.line r.template.tree p.arena _ hdue.owns hdue.bound
    rwa [hinstance] at hyields
  have hl : c.Holds l := howns.holds
  obtain ⟨d, hd, -⟩ := Edit.replaceWith_eq howns fun x hx =>
    hdue.root_notMem x (hgrown.root ▸ hx)
  exact
    { captures := hnames
      inside := fun x hx => by
        obtain ⟨t, -, hmem, l, hl, hroot, -⟩ := hdue.bound.exists_of_mem hx
        exact ⟨hroot ▸ hl.contains, hdue.id_eq ▸ Arena.exists_follow hn hmem⟩
      bound := fun name hname => (hdue.bound.exists_of_name (hnames ▸ hr.covered name hname)).1
      replaced := ⟨n.line, l.root, c, l.tree, d, hdue.id_eq ▸ hn.line_eq, hbuild, hl.tree_eq,
        hl.hasShape, hdue.id_eq ▸ hd⟩
      going := ⟨q, hstep⟩ }

/-- With rules that were compiled the nodes form one tree after each step, however that ends. -/
theorem Coherent.step_pass (hp : p.Coherent root)
    (hc : ∀ side ∈ p.rules.sides, Compiled side.1 side.2) : p.step.pass.Coherent root := by
  have hstep := hp.step
  rcases p.applies_or with ⟨f, below, i, r, b, h⟩ | ⟨hshape, -⟩
  · obtain ⟨q, hq⟩ := (hp.succeeds (hc _ h.sides_mem) h).going
    rw [hq] at hstep ⊢
    exact hstep
  · cases hq : p.step with
    | going q =>
        rw [hq] at hstep
        exact hstep
    | finished q =>
        rw [hq] at hstep
        exact hstep
    | stopped x q =>
        rw [hq] at hstep
        cases x with
        | shape v => exact (hshape v q hq).elim
        | fault f => exact hstep.elim
        | _ => exact hstep

/-- No run from a coherent state comes to refuse the shape of a node. -/
theorem Coherent.run_ne_shape (hp : p.Coherent root)
    (hc : ∀ side ∈ p.rules.sides, Compiled side.1 side.2) (steps : Nat) (v : ShapeViolation) :
    ∀ q, p.run steps ≠ .stopped (.shape v) q := by
  induction steps generalizing p with
  | zero =>
      intro q hq
      cases hq
  | succ steps ih =>
      have hstep := hp.step
      have hsides := p.sides_step
      have hshape : ∀ q, p.step ≠ .stopped (.shape v) q := by
        rcases p.applies_or with ⟨f, below, i, r, b, h⟩ | ⟨h, -⟩
        · obtain ⟨q, hq⟩ := (hp.succeeds (hc _ h.sides_mem) h).going
          simp [hq]
        · exact h v
      rw [Pass.run]
      cases hq : p.step with
      | going q =>
          rw [hq] at hstep hsides
          have hsides : q.rules.sides = p.rules.sides := hsides
          exact ih hstep (hsides ▸ hc)
      | finished q => simp
      | stopped e q => rwa [hq] at hshape

end Pass

namespace Engine

variable {e : Engine}

-- unfolding the reader never helps here
attribute [local irreducible] readProgram

/-- Engines that come about by registering rules, as far as they compile, and by making passes. -/
inductive Reached : Engine → Prop
  | new (readerSigil : Char) (config : Config) : Reached (.new readerSigil config)
  | addRule {e e' : Engine} {spec : RuleSpec} {id : RuleId} (h : Reached e)
    (hadd : e.addRule spec = .ok (id, e')) : Reached e'
  | process {e : Engine} (h : Reached e) (steps : Nat) (a : Arena) :
    Reached (e.processWithin steps a).engine

theorem addRules_cons (e : Engine) (spec : RuleSpec) (rest : List RuleSpec) :
    e.addRules (spec :: rest) =
      match e.addRule spec with
      | .ok (_, e) => e.addRules rest
      | .error error => (.error error, e) := rfl

/-- Registering rules in a row keeps what registering one rule keeps. -/
theorem addRules_keeps {P : Engine → Prop}
    (hadd : ∀ {e e' spec id}, P e → e.addRule spec = .ok (id, e') → P e') {e : Engine} (h : P e)
    (specs : List RuleSpec) : P (e.addRules specs).2 := by
  induction specs generalizing e with
  | nil => exact h
  | cons spec rest ih =>
      rw [addRules_cons]
      split
      · rename_i hspec
        exact ih (hadd h hspec)
      · exact h

theorem register_keeps {P : Engine → Prop}
    (hadd : ∀ {e e' spec id}, P e → e.addRule spec = .ok (id, e') → P e') {e : Engine} (h : P e)
    (specs : List RuleSpec) : P (e.register specs).2 := by
  have hadded := addRules_keeps hadd h specs
  unfold Engine.register
  split
  · exact h
  · split
    all_goals
      rename_i hrules
      rwa [hrules] at hadded

theorem Reached.addRules {e : Engine} (h : e.Reached) (specs : List RuleSpec) :
    (e.addRules specs).2.Reached :=
  addRules_keeps .addRule h specs

theorem Reached.register {e : Engine} (h : e.Reached) (specs : List RuleSpec) :
    (e.register specs).2.Reached :=
  register_keeps .addRule h specs

def PassState (e : Engine) (a : Arena) (root : NodeId) (p : Pass) : Prop :=
  ∃ first steps, e.beginPass a root = .going first ∧ first.run steps = .going p

/-- Over a unit whose tree is held, they are those of a run from where the root has been entered. -/
theorem passState_iff {e : Engine} {a : Arena} {l : Placement} {p : Pass} (ha : a.Holds l) :
    e.PassState a l.root p ↔ ∃ steps, (e.entered a l).run steps = .going p := by
  have hbegin : e.beginPass a l.root = .going (e.entered a l) := Pass.enter_eq ha 0 []
  constructor
  · rintro ⟨first, steps, hfirst, hrun⟩
    cases hbegin.symm.trans hfirst
    exact ⟨steps, hrun⟩
  · rintro ⟨steps, hrun⟩
    exact ⟨_, steps, hbegin, hrun⟩

/-- A pass begins at the root, or finds no node there. -/
theorem beginPass_eq (e : Engine) (a : Arena) (root : NodeId) :
    (∃ children, e.beginPass a root =
      .going ⟨e.config, a, e.rules, e.trace, ⟨0, 1⟩, [⟨root, children, 0, 0⟩]⟩) ∨
    ∃ x, e.beginPass a root = .stopped (.fault x) ⟨e.config, a, e.rules, e.trace, .zero, []⟩ := by
  rw [beginPass, Pass.enter]
  split
  · exact .inl ⟨_, rfl⟩
  · exact .inr ⟨_, rfl⟩

theorem exists_of_beginPass {e : Engine} {a : Arena} {root : NodeId} {first : Pass}
    (h : e.beginPass a root = .going first) :
    ∃ children, first = ⟨e.config, a, e.rules, e.trace, ⟨0, 1⟩, [⟨root, children, 0, 0⟩]⟩ := by
  rcases e.beginPass_eq a root with ⟨children, hbegin⟩ | ⟨x, hbegin⟩
  · cases hbegin.symm.trans h
    exact ⟨children, rfl⟩
  · cases hbegin.symm.trans h

/-- The rules of an engine are those of its passes. -/
theorem PassState.sides_eq {e : Engine} {a : Arena} {root : NodeId} {p : Pass}
    (hp : e.PassState a root p) : p.rules.sides = e.rules.sides := by
  obtain ⟨first, steps, hbegin, hrun⟩ := hp
  obtain ⟨children, hfirst⟩ := exists_of_beginPass hbegin
  have hsides := first.sides_run steps
  rwa [hrun, hfirst] at hsides

theorem PassState.coherent {e : Engine} {a : Arena} {root : NodeId} {p : Pass}
    (hp : e.PassState a root p) (h : a.TreeShaped root) : p.Coherent root := by
  obtain ⟨l, rfl, ha⟩ := h.exists_owns
  obtain ⟨steps, hrun⟩ := (passState_iff ha.holds_all).mp hp
  have hcoherent := (coherent_entered (e := e) ha h.root_eq).run steps
  rwa [hrun] at hcoherent

/-- What holds of a pass at its start and after each step holds of the pass that is reported on. -/
theorem processWithin_keeps {P : Pass → Prop} (hsteps : ∀ p, P p → P p.step.pass) (e : Engine)
    (steps : Nat) (a : Arena)
    (hstart : ∀ summary stack, P ⟨e.config, a, e.rules, e.trace, summary, stack⟩) :
    ∃ p result, P p ∧ e.processWithin steps a = e.finish result p := by
  have houtcome (s : Step) (h : P s.pass) : ∃ p result, P p ∧ e.outcome s = e.finish result p := by
    cases s <;> exact ⟨_, _, h, rfl⟩
  unfold processWithin
  split
  · exact ⟨_, _, hstart .zero [], rfl⟩
  · split
    · exact ⟨_, _, hstart .zero [], rfl⟩
    · rename_i root _ _
      refine houtcome _ ?_
      rcases e.beginPass_eq a root with ⟨children, hbegin⟩ | ⟨x, hbegin⟩
      · rw [hbegin]
        exact Pass.pass_run_keeps hsteps (hstart _ _) steps
      · rw [hbegin]
        exact hstart _ _

theorem sides_processWithin (e : Engine) (steps : Nat) (a : Arena) :
    (e.processWithin steps a).engine.rules.sides = e.rules.sides := by
  obtain ⟨p, result, hp, heq⟩ := processWithin_keeps (P := fun p => p.rules.sides = e.rules.sides)
    (fun p hp => p.sides_step.trans hp) e steps a fun _ _ => rfl
  rw [heq]
  exact hp

/-- What holds of the rules of an engine and of all rules that compile holds after a registration. -/
theorem forall_sides_addRule {e e' : Engine} {spec : RuleSpec} {id : RuleId}
    {P : Pattern → Template → Prop} (h : ∀ side ∈ e.rules.sides, P side.1 side.2)
    (hadd : e.addRule spec = .ok (id, e'))
    (hrule : ∀ p t, e.snippets.rule spec.source spec.replacement = .ok (p, t) → P p t) :
    ∀ side ∈ e'.rules.sides, P side.1 side.2 := by
  obtain ⟨⟨p, t⟩, hside, hadd⟩ := bind_eq_ok.mp hadd
  cases hadd
  simp only [RuleStore.sides, RuleStore.push, List.map_append, List.mem_append]
  rintro side (hold | hnew)
  · exact h side hold
  · simp only [Rule.sides, List.map_cons, List.map_nil, List.mem_singleton] at hnew
    rw [hnew]
    exact hrule p t hside

/-- What holds of all rules that compile holds of the rules of an engine. -/
theorem Reached.forall_sides (h : e.Reached) {P : Pattern → Template → Prop}
    (hrule : ∀ (r : SnippetReader) source replacement p t,
      r.rule source replacement = .ok (p, t) → P p t) :
    ∀ side ∈ e.rules.sides, P side.1 side.2 := by
  induction h with
  | new readerSigil config => simp [Engine.new, RuleStore.empty, RuleStore.sides]
  | addRule _ hadd ih => exact forall_sides_addRule ih hadd (hrule _ _ _)
  | process _ steps a ih =>
      rw [sides_processWithin]
      exact ih

/-- The rules of an engine were compiled. -/
theorem Reached.compiled (h : e.Reached) : ∀ side ∈ e.rules.sides, Compiled side.1 side.2 :=
  h.forall_sides fun _ _ _ _ _ => SnippetReader.compiled_of_rule

/-- A pass over a unit whose nodes form one tree never refuses the shape of a node and never meets
a slot without a node, however long it lasts. In every state that it goes through, the application
of a rule that is due succeeds: the match has bound exactly the captures of the pattern, to live
nodes below the position, all captures of the template are among them, the template is rebuilt with
the children that the kinds of its nodes ask for, and what was found is replaced. -/
theorem applications_succeed {a : Arena} {root : NodeId} (he : e.Reached) (h : a.TreeShaped root) :
    (∀ steps, (∀ v, (e.processWithin steps a).result ≠ .error (.shape v)) ∧
      ∀ f, (e.processWithin steps a).result ≠ .error (.fault f)) ∧
    ∀ p, e.PassState a root p → ∀ f below i r b, p.Applies f below i r b →
      p.Succeeds f below i r b := by
  obtain ⟨l, rfl, ha⟩ := h.exists_owns
  have hcoherent := coherent_entered (e := e) ha h.root_eq
  have hcompiled : ∀ side ∈ (e.entered a l).rules.sides, Compiled side.1 side.2 := he.compiled
  constructor
  · refine fun steps => ⟨fun v => ?_, (exists_owns_processWithin h steps).1⟩
    by_cases hrules : e.rules.size = 0
    · simp [processWithin_of_noRules hrules]
    · have hrun := hcoherent.run_ne_shape hcompiled steps v
      rw [processWithin_eq ha.holds_all h.root_eq hrules]
      cases hend : (e.entered a l).run steps with
      | going q => simp [outcome, finish]
      | finished q => simp [outcome, finish]
      | stopped x q =>
          rintro heq
          cases heq
          exact hrun q hend
  · intro p hp f below i r b happlies
    have hside : r.sides ∈ e.rules.sides := hp.sides_eq ▸ happlies.sides_mem
    exact (hp.coherent h).succeeds (he.compiled _ hside) happlies

/-- In the pass that drops an addition of zero, there is such an application. -/
theorem dropZero_applications_succeed :
    ∃ root p f below i r b, (Arena.ofTree "unit" sumTree).TreeShaped root ∧
      dropZero.PassState (.ofTree "unit" sumTree) root p ∧ p.Applies f below i r b ∧
        p.Succeeds f below i r b := by
  obtain ⟨root, hshape, -⟩ := Arena.ofTree_treeShaped "unit" (t := sumTree) (by decide)
  have hreached : dropZero.Reached := by
    rw [dropZero]
    exact (Reached.new defaultSigil {}).register [⟨"$x + 0", "$x"⟩]
  have hresult : (dropZero.processWithin 9 (.ofTree "unit" sumTree)).result = .ok ⟨1, 4⟩ := by
    decide +kernel
  obtain ⟨l, rfl, ha⟩ := hshape.exists_owns
  rw [processWithin_eq ha.holds_all hshape.root_eq (by decide +kernel)] at hresult
  have hrewrites : ((dropZero.entered (.ofTree "unit" sumTree) l).run 9).pass.summary.rewrites = 1 := by
    cases hend : (dropZero.entered (.ofTree "unit" sumTree) l).run 9 with
    | finished q =>
        rw [hend] at hresult
        exact congrArg Summary.rewrites (Except.ok.inj hresult)
    | going q =>
        rw [hend] at hresult
        cases hresult
    | stopped x q =>
        rw [hend] at hresult
        cases hresult
  have hlt : (dropZero.entered (.ofTree "unit" sumTree) l).summary.rewrites <
      ((dropZero.entered (.ofTree "unit" sumTree) l).run 9).pass.summary.rewrites := by
    rw [hrewrites]
    exact Nat.zero_lt_one
  obtain ⟨k, p, f, below, i, r, b, hk, happlies⟩ := Pass.exists_applies_of_rewrites hlt
  have hstate : dropZero.PassState (.ofTree "unit" sumTree) l.root p :=
    ⟨_, k, Pass.enter_eq ha.holds_all 0 [], hk⟩
  exact ⟨l.root, p, f, below, i, r, b, hshape, hstate, happlies,
    (applications_succeed hreached hshape).2 p hstate f below i r b happlies⟩

end Engine

end SnippetRewrite
