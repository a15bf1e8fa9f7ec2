import SnippetRewrite.Rewrite.Pass

/-!
The rewrite engine: settings, registered rules and trace log. Rules are registered one by one or as
a batch; a side that does not compile leaves the engine as it was.
-/

namespace SnippetRewrite

structure Engine where
  /-- The sigil that the reader of the host language admits in identifiers. -/
  readerSigil : Char
  config : Config
  rules : RuleStore
  trace : TraceLog

/-- The outcome of a pass: counts or an error, and what it left behind. -/
structure Processed where
  result : Except RewriteError Summary
  engine : Engine
  arena : Arena

structure RuleSpec where
  source : String
  replacement : String
deriving DecidableEq, Repr

inductive BatchError where
  /-- A rule does not compile; `index` is its place in the batch. -/
  | broken (index : Nat) (spec : RuleSpec) (error : CompileError)
  /-- A rule that compiled before is refused when it is registered. -/
  | refused (error : CompileError)
deriving DecidableEq, Repr

/-- The steps that a pass may take unless another number is given. -/
def defaultSteps : Nat := Nat.pow 2 62

namespace Engine

def new (readerSigil : Char) (config : Config) : Engine where
  readerSigil := readerSigil
  config := config
  rules := .empty
  trace := .new config.debugTrace config.traceCapacity

/-- How the engine reads the sides of rules. -/
def snippets (e : Engine) : SnippetReader :=
  ⟨e.readerSigil, e.config.captureSigil⟩

/-- Registers a rule and answers its number. -/
def addRule (e : Engine) (spec : RuleSpec) : Except CompileError (RuleId × Engine) := do
  let (p, t) ← e.snippets.rule spec.source spec.replacement
  pure (e.rules.nextId, { e with rules := e.rules.push p t })

/-- Registers rules up to the first that does not compile. -/
def addRules : Engine → List RuleSpec → Except CompileError Unit × Engine
  | e, [] => (.ok (), e)
  | e, spec :: rest =>
    match e.addRule spec with
    | .ok (_, e) => addRules e rest
    | .error error => (.error error, e)

/-- The first rule of a batch that does not compile; `index` counts from one. -/
def findBroken (e : Engine) : Nat → List RuleSpec → Option BatchError
  | _, [] => none
  | index, spec :: rest =>
    match e.snippets.rule spec.source spec.replacement with
    | .ok _ => findBroken e (index + 1) rest
    | .error error => some (.broken index spec error)

/-- Registers a batch of rules once all of them compile, and answers how many there are. -/
def register (e : Engine) (specs : List RuleSpec) : Except BatchError Nat × Engine :=
  match e.findBroken 1 specs with
  | some error => (.error error, e)
  | none =>
    match e.addRules specs with
    | (.ok (), e) => (.ok specs.length, e)
    | (.error error, e) => (.error (.refused error), e)

def ruleStats (e : Engine) : List RuleStats :=
  e.rules.stats

def setDebugTrace (e : Engine) (enabled : Bool) : Engine :=
  { e with trace := e.trace.setEnabled enabled }

/-- Hands out the entries of the trace log and empties it. -/
def takeTrace (e : Engine) : List TraceEntry × Engine :=
  let (entries, trace) := e.trace.take
  (entries, { e with trace })

def clearTrace (e : Engine) : Engine :=
  { e with trace := e.trace.clear }

/-- The state of a pass before its first step. -/
def beginPass (e : Engine) (a : Arena) (root : NodeId) : Step :=
  let p : Pass := ⟨e.config, a, e.rules, e.trace, .zero, []⟩
  p.enter root 0 []

def finish (e : Engine) (result : Except RewriteError Summary) (p : Pass) : Processed :=
  ⟨result, { e with rules := p.rules, trace := p.trace }, p.arena⟩

/-- Rewrites a unit until no rule matches anywhere, in at most so many steps. -/
def processWithin (e : Engine) (steps : Nat) (a : Arena) : Processed :=
  match a.root with
  | none => ⟨.ok .zero, e, a⟩
  | some root =>
    if e.rules.size = 0 then ⟨.ok .zero, e, a⟩
    else
      let result :=
        match e.beginPass a root with
        | .going p => p.run steps
        | stop => stop
      match result with
      | .finished p => e.finish (.ok p.summary) p
      | .stopped error p => e.finish (.error error) p
      | .going p => e.finish (.error .unfinished) p

def process (e : Engine) (a : Arena) : Processed :=
  e.processWithin defaultSteps a

end Engine

end SnippetRewrite
