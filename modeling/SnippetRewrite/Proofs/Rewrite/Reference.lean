import SnippetRewrite.Proofs.Rule.TreeInstance
import SnippetRewrite.Rewrite.Engine

/-!
Rewriting as a recursive function of trees. There are no slots and no stack here: a tree is given
back with its rewritten children, and where a rule matches, the instance of its template is
rewritten in turn. The recursion need not come to an end, so it is cut off at a depth.
-/

namespace SnippetRewrite

/-- What rewriting depends on besides the tree. -/
structure Rewriter where
  config : Config
  origin : String
  sides : List (Pattern × Template)

namespace Rewriter

/-- How a tree is visited: the tree that it becomes with the counts after the visit, or why there is
none. -/
abbrev Visitor := Tree → Summary → Except RewriteError (Tree × Summary)

def visitSlots (visit : Visitor) :
    List (Option Tree) → Summary → Except RewriteError (List (Option Tree) × Summary)
  | [], s => .ok ([], s)
  | none :: rest, s => do
    let (ts, s) ← visitSlots visit rest s
    pure (none :: ts, s)
  | some t :: rest, s => do
    let (t, s) ← visit t s
    let (ts, s) ← visitSlots visit rest s
    pure (some t :: ts, s)

/-- Visits a child unless too many rewritten positions enclose it. -/
def visitChild (r : Rewriter) (growth : Nat) (visit : Visitor) : Visitor := fun t s =>
  if r.config.maxDepth ≤ growth then .error (.depthLimit ⟨r.origin, t.line⟩ r.config.maxDepth)
  else visit t { s with nodesVisited := s.nodesVisited + 1 }

/-- Applies the first rule that matches a tree with rewritten children, and goes on with the
instance of its template. -/
def settle (r : Rewriter) (applications : Nat) (again : Visitor) : Visitor := fun t s =>
  match RuleStore.firstOn (Pass.matcher r.config) t 0 r.sides with
  | none => .ok (t, s)
  | some (id, template, b) =>
    if applications = r.config.maxRewritesPerNode then
      .error (.ruleCycle id ⟨r.origin, t.line⟩ r.config.maxRewritesPerNode)
    else
      match template.tree.instantiate b t.line with
      | .error v => .error (.shape v)
      | .ok u => again u { s with rewrites := s.rewrites + 1 }

def innerGrowth (applications growth : Nat) : Nat :=
  if 0 < applications then growth + 1 else 0

/-- Rewrites a tree whose root was rewritten so often in this visit and is enclosed by so many
rewritten positions, down to a depth of the recursion. -/
def rewrite (r : Rewriter) : Nat → Nat → Nat → Visitor
  | 0, _, _, _, _ => .error .unfinished
  | bound + 1, applications, growth, .node line label slots, s => do
    let inner := innerGrowth applications growth
    let (slots, s) ← visitSlots (r.visitChild inner (rewrite r bound 0 inner)) slots s
    r.settle applications (rewrite r bound (applications + 1) growth) (.node line label slots) s

/-- Rewrites the tree of a unit, the root of which is the first node to be visited. -/
def rewriteUnit (r : Rewriter) (bound : Nat) (t : Tree) : Except RewriteError (Tree × Summary) :=
  r.rewrite bound 0 0 t ⟨0, 1⟩

end Rewriter

/-- What rewriting depends on, as an engine has it for the units of an origin. -/
def Engine.rewriter (e : Engine) (origin : String) : Rewriter :=
  ⟨e.config, origin, e.rules.sides⟩

def Pass.rewriter (p : Pass) : Rewriter :=
  ⟨p.config, p.arena.origin, p.rules.sides⟩

end SnippetRewrite
