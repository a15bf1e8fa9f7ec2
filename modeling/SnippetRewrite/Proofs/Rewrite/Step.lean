import SnippetRewrite.Proofs.Rule.TreeInstance
import SnippetRewrite.Rewrite.Pass

/-!
The steps of a pass, one law for each. A step at a position whose subtree the arena holds never
meets a slot without a node. Which step it is depends on the tree there; only the application of a
rule changes the arena, and it exchanges the subtree at the position for the instance of the
template and leaves the slot of its root and all entries around it as they are. Everything a step
can come to is listed once, and what steps preserve is read off that list.
-/

namespace SnippetRewrite

namespace Pass

open Placement

variable {p q : Pass} {es : List Entry} {l n : Placement} {f : Frame} {below : List Frame}

/-- The passes agree on what no step changes: the settings, the sides of the rules, and the origin
and the root of the unit. -/
structure Alike (p q : Pass) : Prop where
  config : q.config = p.config
  sides : q.rules.sides = p.rules.sides
  origin : q.arena.origin = p.arena.origin
  root : q.arena.root = p.arena.root

theorem children_eq {a : Arena} (hl : a.Holds l) : a.children l.root = .ok (childIds l.slots) := by
  obtain ⟨c, hc, hchildren⟩ := hl.children
  simp [Arena.children, Arena.cell, hc, Except.map, hchildren]

theorem location_eq {a : Arena} (hl : a.Holds l) : a.location l.root = .ok ⟨a.origin, l.line⟩ := by
  simp [Arena.location, hl.line_eq, Except.map]

theorem enter_eq (hl : p.arena.Holds l) (growth : Nat) (stack : List Frame) :
    p.enter l.root growth stack =
      .going
        { p with
          summary := { p.summary with nodesVisited := p.summary.nodesVisited + 1 }
          stack := ⟨l.root, childIds l.slots, 0, growth⟩ :: stack } := by
  simp only [enter, children_eq hl]

/-- A child is visited unless too many rewritten positions enclose it. -/
theorem step_descend {pending : List NodeId} (hl : p.arena.Holds l) (hstack : p.stack = f :: below)
    (hpending : f.pending = l.root :: pending) :
    p.step =
      if p.config.maxDepth ≤ f.innerGrowth then
        .stopped (.depthLimit ⟨p.arena.origin, l.line⟩ p.config.maxDepth) p
      else
        .going
          { p with
            summary := { p.summary with nodesVisited := p.summary.nodesVisited + 1 }
            stack := ⟨l.root, childIds l.slots, 0, f.innerGrowth⟩ :: { f with pending } :: below } := by
  simp only [step, hstack, hpending, descend, location_eq hl, enter_eq hl]

theorem step_leave (hl : p.arena.Holds l) (hstack : p.stack = f :: below) (hid : f.id = l.root)
    (hpending : f.pending = [])
    (hnone : RuleStore.firstOn (matcher p.config) l.tree 0 p.rules.sides = none) :
    p.step = .going { p with stack := below } := by
  have hfirst : p.rules.firstMatch (matcher p.config) p.arena l.root = .ok none :=
    RuleStore.firstAmong_of_none hl hnone
  simp only [step, hstack, hpending, hid, hfirst]

/-- A rule that matches once too often ends the pass. -/
theorem step_cycle {i : RuleId} {u : Template} {s : TreeBindings} (hl : p.arena.Holds l)
    (hstack : p.stack = f :: below) (hid : f.id = l.root) (hpending : f.pending = [])
    (hsome : RuleStore.firstOn (matcher p.config) l.tree 0 p.rules.sides = some (i, u, s))
    (happs : f.applications = p.config.maxRewritesPerNode) :
    p.step =
      .stopped (.ruleCycle i ⟨p.arena.origin, l.line⟩ p.config.maxRewritesPerNode) p := by
  obtain ⟨r, b, hfirst, -, -⟩ := RuleStore.firstAmong_of_some hl hsome
  have hmatch : p.rules.firstMatch (matcher p.config) p.arena l.root = .ok (some (i, r, b)) := hfirst
  simp only [step, hstack, hpending, hid, hmatch, happs, if_true, location_eq hl]

theorem recordTrace_ok {a : Arena} (hl : a.Holds l) (log : TraceLog) (i : RuleId)
    (location : Location) (before : Option String) :
    ∃ log', recordTrace log a i location before l.root = .ok log' := by
  cases before with
  | none => exact ⟨log, rfl⟩
  | some text =>
      obtain ⟨after, hafter⟩ := hl.exists_source
      exact ⟨log.record ⟨i, location, text, after⟩, by simp [recordTrace, hafter]⟩

/-- What an application that is not refused leads to. -/
structure Applied (p q : Pass) (f : Frame) (below : List Frame) (i : RuleId) (n m : Placement)
    (es : List Entry) : Prop where
  root_eq : m.root = n.root
  owns : q.arena.Owns (m.entries ++ es)
  stack : q.stack =
    { f with applications := f.applications + 1, pending := childIds m.slots } :: below
  summary : q.summary = { p.summary with rewrites := p.summary.rewrites + 1 }
  rules : q.rules = p.rules.recordHit i
  alike : p.Alike q

/-- An application exchanges the subtree at a position for an instance of the template. -/
theorem apply_eq {i : RuleId} {r : Rule} {b : Bindings} {s : TreeBindings} {ids : List NodeId}
    (ha : p.arena.Owns (n.entries ++ es)) (hroot : ∀ x, p.arena.root = some x → x ∉ idsIn n.slots)
    (hid : f.id = n.root) (hb : p.arena.Bound ids b s) :
    match r.template.tree.instantiate s n.line with
    | .error v => ∃ q, p.apply f below i r b = .stopped (.shape v) q
    | .ok t => ∃ m q, p.apply f below i r b = .going q ∧ m.tree = t ∧
        p.Applied q f below i n m es := by
  obtain ⟨config, arena, rules, trace, summary, stack⟩ := p
  have hn : arena.Holds n := ha.holds
  obtain ⟨before, hbefore⟩ : ∃ before,
      (if trace.enabled then (arena.sourceOf n.root).map some else .ok none) = .ok before := by
    obtain ⟨text, htext⟩ := hn.exists_source
    cases trace.enabled <;> simp [htext, Except.map]
  have hbuild : Edit.Yields (r.template.instantiate b n.line) arena (n.entries ++ es)
      (r.template.tree.instantiate s n.line) := Template.build_yields n.line _ arena _ ha hb
  cases hinstance : r.template.tree.instantiate s n.line with
  | error v =>
      rw [hinstance] at hbuild
      obtain ⟨c, hc⟩ := hbuild
      have hedit : (do Edit.replaceWith n.root (← r.template.instantiate b n.line) : Edit Unit)
          arena = .error (.shape v) c := Edit.bind_error hc
      exact ⟨_, by simp only [apply, hid, location_eq hn, hbefore, hedit]; rfl⟩
  | ok t =>
      rw [hinstance] at hbuild
      obtain ⟨m, c, hc, htree, hcowns, hgrown⟩ := hbuild
      -- the instance stands beside the subtree until it takes its place
      obtain ⟨d, hd, hfrees⟩ := Edit.replaceWith_eq hcowns fun x hx =>
        hroot x (hgrown.root ▸ hx)
      have hedit : (do Edit.replaceWith n.root (← r.template.instantiate b n.line) : Edit Unit)
          arena = .ok () d := by
        rw [Edit.bind_ok hc, hd]
      have hm : d.Holds (m.moveTo n.root) :=
        hfrees.owns.holds
      obtain ⟨log, hlog⟩ := recordTrace_ok hm trace i ⟨arena.origin, n.line⟩ before
      have hchildren := children_eq hm
      rw [root_moveTo] at hlog hchildren
      refine ⟨m.moveTo n.root, _, by
        simp only [apply, hid, location_eq hn, hbefore, hedit, hlog, hchildren]; rfl,
        by rw [tree_moveTo, htree], ?_⟩
      exact
        { root_eq := rfl
          owns := hfrees.owns
          stack := by rw [hid]
          summary := rfl
          rules := rfl
          alike := ⟨rfl, RuleStore.sides_recordHit rules i, hfrees.origin.trans hgrown.origin,
            hfrees.root.trans hgrown.root⟩ }

/-- A rule that may be applied is applied. -/
theorem step_apply {i : RuleId} {u : Template} {s : TreeBindings}
    (ha : p.arena.Owns (n.entries ++ es)) (hroot : ∀ x, p.arena.root = some x → x ∉ idsIn n.slots)
    (hstack : p.stack = f :: below) (hid : f.id = n.root) (hpending : f.pending = [])
    (hsome : RuleStore.firstOn (matcher p.config) n.tree 0 p.rules.sides = some (i, u, s))
    (happs : f.applications ≠ p.config.maxRewritesPerNode) :
    match u.tree.instantiate s n.line with
    | .error v => ∃ q, p.step = .stopped (.shape v) q
    | .ok t => ∃ m q, p.step = .going q ∧ m.tree = t ∧ p.Applied q f below i n m es := by
  have hn : p.arena.Holds n := ha.holds
  obtain ⟨r, b, hfirst, rfl, hb⟩ := RuleStore.firstAmong_of_some hn hsome
  have hmatch : p.rules.firstMatch (matcher p.config) p.arena n.root = .ok (some (i, r, b)) := hfirst
  have hstep : p.step = p.apply f below i r b := by
    simp only [step, hstack, hpending, hid, hmatch, happs, if_false]
  rw [hstep]
  exact apply_eq ha hroot hid hb

/-! ### All steps alike -/

/-- What an application comes to, with what it has found out on the way. -/
inductive Attempts (p : Pass) (f : Frame) (below : List Frame) (i : RuleId) (r : Rule)
    (b : Bindings) : Step → Prop
  | going (line : Nat) (before : Option String) (a : Arena) (log : TraceLog)
      (children : List NodeId) (hline : p.arena.line f.id = .ok line)
      (hbefore : (if p.trace.enabled then (p.arena.sourceOf f.id).map some else .ok none) =
        .ok before)
      (hedit : (do Edit.replaceWith f.id (← r.template.instantiate b line) : Edit Unit) p.arena =
        .ok () a)
      (hlog : recordTrace p.trace a i ⟨p.arena.origin, line⟩ before f.id = .ok log)
      (hchildren : a.children f.id = .ok children) :
    p.Attempts f below i r b
      (.going ⟨p.config, a, p.rules.recordHit i, log,
        { p.summary with rewrites := p.summary.rewrites + 1 },
        { f with applications := f.applications + 1, pending := children } :: below⟩)
  | stopped (e : ArenaError) (q : Pass)
      (hrules : q.rules = p.rules ∨ q.rules = p.rules.recordHit i)
      (htrace : q.trace = p.trace ∨
        ∃ a place before, recordTrace p.trace a i place before f.id = .ok q.trace) :
    p.Attempts f below i r b (.stopped (.ofArenaError e) q)

theorem attempts_apply (p : Pass) (f : Frame) (below : List Frame) (i : RuleId) (r : Rule)
    (b : Bindings) : p.Attempts f below i r b (p.apply f below i r b) := by
  obtain ⟨config, arena, rules, trace, summary, stack⟩ := p
  simp only [apply]
  cases hline : arena.line f.id with
  | error x =>
      simp only [Arena.location, hline, Except.map]
      exact .stopped (.fault x) _ (.inl rfl) (.inl rfl)
  | ok line =>
      simp only [Arena.location, hline, Except.map]
      split
      · rename_i x _
        exact .stopped (.fault x) _ (.inl rfl) (.inl rfl)
      · rename_i before hbefore
        split
        · exact .stopped _ _ (.inl rfl) (.inl rfl)
        · rename_i a hedit
          split
          · rename_i x _
            exact .stopped (.fault x) _ (.inr rfl) (.inl rfl)
          · rename_i log hlog
            split
            · rename_i x _
              exact .stopped (.fault x) _ (.inr rfl) (.inr ⟨a, _, before, hlog⟩)
            · rename_i children hchildren
              exact .going line before a log children hline hbefore hedit hlog hchildren

/-- What a step comes to, with what it has found out on the way. -/
inductive Takes (p : Pass) : Step → Prop
  | over (hstack : p.stack = []) : p.Takes (.finished p)
  | tooDeep (f : Frame) (below : List Frame) (child : NodeId) (pending : List NodeId)
      (place : Location) (hstack : p.stack = f :: below) (hpending : f.pending = child :: pending)
      (hdepth : p.config.maxDepth ≤ f.innerGrowth) (hplace : p.arena.location child = .ok place) :
    p.Takes (.stopped (.depthLimit place p.config.maxDepth) p)
  | enter (f : Frame) (below : List Frame) (child : NodeId) (pending children : List NodeId)
      (hstack : p.stack = f :: below) (hpending : f.pending = child :: pending) :
    p.Takes (.going
      { p with
        summary := { p.summary with nodesVisited := p.summary.nodesVisited + 1 }
        stack := ⟨child, children, 0, f.innerGrowth⟩ :: { f with pending } :: below })
  | leave (f : Frame) (below : List Frame) (hstack : p.stack = f :: below)
      (hpending : f.pending = []) : p.Takes (.going { p with stack := below })
  | cycle (f : Frame) (below : List Frame) (i : RuleId) (place : Location)
      (hstack : p.stack = f :: below) (hpending : f.pending = [])
      (hplace : p.arena.location f.id = .ok place) :
    p.Takes (.stopped (.ruleCycle i place p.config.maxRewritesPerNode) p)
  | apply {s : Step} (f : Frame) (below : List Frame) (i : RuleId) (r : Rule) (b : Bindings)
      (hstack : p.stack = f :: below) (hpending : f.pending = [])
      (hfirst : p.rules.firstMatch (matcher p.config) p.arena f.id = .ok (some (i, r, b)))
      (hlimit : f.applications ≠ p.config.maxRewritesPerNode)
      (happly : p.Attempts f below i r b s) : p.Takes s
  | fault (x : Fault) : p.Takes (.stopped (.fault x) p)

theorem takes_step (p : Pass) : p.Takes p.step := by
  unfold step
  split
  · rename_i hstack
    exact .over hstack
  · rename_i f below hstack
    split
    · rename_i child pending hpending
      unfold descend enter
      split
      · rename_i hdepth
        split
        · rename_i place hplace
          exact .tooDeep f below child pending place hstack hpending hdepth hplace
        · exact .fault _
      · split
        · exact .enter f below child pending _ hstack hpending
        · exact .fault _
    · rename_i hpending
      split
      · exact .fault _
      · exact .leave f below hstack hpending
      · rename_i i r b hfirst
        split
        · split
          · rename_i place hplace
            exact .cycle f below i place hstack hpending hplace
          · exact .fault _
        · rename_i hlimit
          exact .apply f below i r b hstack hpending hfirst hlimit (p.attempts_apply f below i r b)

theorem takes_of_step {s : Step} (h : p.step = s) : p.Takes s :=
  h ▸ p.takes_step

/-- What a step changes that does not end the pass: it enters a child, leaves a position, or applies
a rule. -/
inductive Moves (p q : Pass) : Prop
  | enter (f g h : Frame) (below : List Frame) (hstack : p.stack = f :: below)
      (hnext : q =
        { p with
          summary := { p.summary with nodesVisited := p.summary.nodesVisited + 1 }
          stack := g :: h :: below })
  | leave (f : Frame) (hstack : p.stack = f :: q.stack) (hnext : q = { p with stack := q.stack })
  | rewrite (f g : Frame) (below : List Frame) (hstack : p.stack = f :: below)
      (hnext : q.stack = g :: below)
      (hsummary : q.summary = { p.summary with rewrites := p.summary.rewrites + 1 })

theorem moves_of_step (h : p.step = .going q) : p.Moves q := by
  cases takes_of_step h with
  | enter f below child pending children hstack => exact .enter _ _ _ _ hstack rfl
  | leave f below hstack => exact .leave _ hstack rfl
  | apply f below i r b hstack _ _ _ happly =>
      cases happly
      exact .rewrite _ _ _ hstack rfl rfl

end Pass

end SnippetRewrite
