import SnippetRewrite.Rewrite.Config
import SnippetRewrite.Rewrite.Trace

/-!
A rewrite pass over a unit. The walk visits children before their parent. Where a rule matches, its
template takes the place of the node and the walk goes through the new children again, until no rule
matches there. Two limits stop rules that would go on for ever: the number of applications at one
position, and the number of rewritten positions that stand directly inside each other.

A pass is a sequence of steps on an explicit stack of positions, so that every state it goes through
can be looked at.
-/

namespace SnippetRewrite

inductive RewriteError where
  | ruleCycle (rule : RuleId) (location : Location) (limit : Nat)
  | depthLimit (location : Location) (limit : Nat)
  | shape (violation : ShapeViolation)
  | fault (fault : Fault)
  /-- The pass took more steps than it may. -/
  | unfinished
deriving DecidableEq, Repr

namespace RewriteError

def message : RewriteError → String
  | ruleCycle rule location limit =>
    "rule " ++ rule.text ++ " still matches at " ++ location.text ++ " after " ++ toString limit
      ++ " rewrites"
  | depthLimit location limit =>
    "tree at " ++ location.text ++ " nests deeper than " ++ toString limit
      ++ " levels during rewriting"
  | shape violation => "internal shape violation: " ++ violation.message
  | fault f => f.message
  | unfinished => "rewriting does not come to an end"

/-- The messages of an error and of its causes, outermost first. -/
def chain (e : RewriteError) : List String :=
  match e with
  | shape violation => [e.message, violation.message]
  | _ => [e.message]

def ofArenaError : ArenaError → RewriteError
  | .shape violation => .shape violation
  | .fault f => .fault f

end RewriteError

structure Summary where
  rewrites : Nat
  nodesVisited : Nat
deriving DecidableEq, Repr, Inhabited

namespace Summary

def zero : Summary := ⟨0, 0⟩

def merge (s t : Summary) : Summary :=
  ⟨s.rewrites + t.rewrites, s.nodesVisited + t.nodesVisited⟩

def changed (s : Summary) : Bool :=
  0 < s.rewrites

end Summary

/-- A position on the walk: its node, the children still to be visited, how often it was rewritten
in this visit, and how many rewritten positions enclose it directly. -/
structure Frame where
  id : NodeId
  pending : List NodeId
  applications : Nat
  growth : Nat
deriving DecidableEq, Repr

/-- The growth of the positions directly inside a frame. A position that was not rewritten starts
the count anew. -/
def Frame.innerGrowth (f : Frame) : Nat :=
  if 0 < f.applications then f.growth + 1 else 0

/-- The state of a pass; the innermost position comes first on the stack. -/
structure Pass where
  config : Config
  arena : Arena
  rules : RuleStore
  trace : TraceLog
  summary : Summary
  stack : List Frame

inductive Step where
  | going (pass : Pass)
  | finished (pass : Pass)
  | stopped (error : RewriteError) (pass : Pass)

namespace Arena

def location (a : Arena) (id : NodeId) : Except Fault Location :=
  (a.line id).map fun line => ⟨a.origin, line⟩

def children (a : Arena) (id : NodeId) : Except Fault (List NodeId) :=
  (a.cell id).map Cell.children

end Arena

namespace Pass

def matcher (config : Config) : Matcher :=
  ⟨config.unwrapSingleStatements⟩

def enter (p : Pass) (id : NodeId) (growth : Nat) (stack : List Frame) : Step :=
  match p.arena.children id with
  | .ok children =>
    .going
      { p with
        summary := { p.summary with nodesVisited := p.summary.nodesVisited + 1 }
        stack := ⟨id, children, 0, growth⟩ :: stack }
  | .error f => .stopped (.fault f) p

/-- Visits a child of the innermost position unless it stands too deep. -/
def descend (p : Pass) (child : NodeId) (growth : Nat) (stack : List Frame) : Step :=
  if p.config.maxDepth ≤ growth then
    match p.arena.location child with
    | .ok location => .stopped (.depthLimit location p.config.maxDepth) p
    | .error f => .stopped (.fault f) p
  else p.enter child growth stack

/-- Records a rewrite in the trace; `before` is there if the log was enabled. -/
def recordTrace (log : TraceLog) (a : Arena) (rule : RuleId) (location : Location)
    (before : Option String) (id : NodeId) : Except Fault TraceLog :=
  match before with
  | none => .ok log
  | some before => do pure (log.record ⟨rule, location, before, ← a.sourceOf id⟩)

/-- Applies a rule at the innermost position, whose new children are then visited. -/
def apply (p : Pass) (frame : Frame) (below : List Frame) (id : RuleId) (rule : Rule)
    (b : Bindings) : Step :=
  let ⟨config, arena, rules, trace, summary, stack⟩ := p
  match arena.location frame.id with
  | .error f => .stopped (.fault f) ⟨config, arena, rules, trace, summary, stack⟩
  | .ok location =>
    match if trace.enabled then (arena.sourceOf frame.id).map some else .ok none with
    | .error f => .stopped (.fault f) ⟨config, arena, rules, trace, summary, stack⟩
    | .ok before =>
      let edit : Edit Unit := do
        Edit.replaceWith frame.id (← rule.template.instantiate b location.line)
      match edit arena with
      | .error e arena =>
        .stopped (.ofArenaError e) ⟨config, arena, rules, trace, summary, stack⟩
      | .ok () arena =>
        let rules := rules.recordHit id
        let summary := { summary with rewrites := summary.rewrites + 1 }
        match recordTrace trace arena id location before frame.id with
        | .error f => .stopped (.fault f) ⟨config, arena, rules, trace, summary, stack⟩
        | .ok trace =>
          match arena.children frame.id with
          | .error f => .stopped (.fault f) ⟨config, arena, rules, trace, summary, stack⟩
          | .ok children =>
            let frame := { frame with applications := frame.applications + 1, pending := children }
            .going ⟨config, arena, rules, trace, summary, frame :: below⟩

/-- One step: visit the next child, apply the first matching rule, or leave the position. -/
def step (p : Pass) : Step :=
  match p.stack with
  | [] => .finished p
  | frame :: below =>
    match frame.pending with
    | child :: pending => p.descend child frame.innerGrowth ({ frame with pending } :: below)
    | [] =>
      match p.rules.firstMatch (matcher p.config) p.arena frame.id with
      | .error f => .stopped (.fault f) p
      | .ok none => .going { p with stack := below }
      | .ok (some (id, rule, b)) =>
        if frame.applications = p.config.maxRewritesPerNode then
          match p.arena.location frame.id with
          | .ok location => .stopped (.ruleCycle id location p.config.maxRewritesPerNode) p
          | .error f => .stopped (.fault f) p
        else p.apply frame below id rule b

def run : Nat → Pass → Step
  | 0, p => .going p
  | fuel + 1, p =>
    match p.step with
    | .going p => run fuel p
    | result => result

end Pass

end SnippetRewrite
