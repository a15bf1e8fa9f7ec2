import SnippetRewrite.Console.Report

/-!
The state of a console: a compiler and the switches of the user. Commands change it and answer with
a text; other input is rewritten.
-/

namespace SnippetRewrite

/-- The label of text typed at the console. -/
def consoleOrigin : String := "<repl>"

def version : String := "0.1.0"

structure Console where
  compiler : Compiler
  running : Bool
  quiet : Bool
  dump : Bool
  /-- How many units were rewritten. -/
  units : Nat

/-- A rewritten unit: its text and the number of rewrites in it. -/
structure Execution where
  output : String
  rewrites : Nat
deriving DecidableEq, Repr

def onOff (state : Bool) : String :=
  if state then "on" else "off"

def helpText : String :=
"Splice REPL Commands:
  .help               - Show this help message
  .quit               - Exit the REPL
  .quiet              - Toggle quiet mode (hide rewrite counts and timing)
  .rule FROM => TO    - Register a rewrite rule
  .load FILE          - Register rules from a JSON rules file
  .rules              - List rules with their hit counts
  .trace [on|off]     - Set or toggle rewrite tracing
  .log                - Show and clear the trace log
  .dump               - Toggle printing the kind tree after each rewrite

Rules are written as source snippets. Identifiers starting with the capture
sigil are wildcards, and a name used twice must match equal subtrees:
  .rule $a + $a => $a * 2
  .rule strlen($s) == 0 => $s === ''

Anything else typed at the prompt is parsed, rewritten and printed back."

def traceText : List TraceEntry → String
  | [] => "Trace log is empty."
  | entries => String.intercalate "\n" (entries.map TraceEntry.text)

def rulesText : List RuleStats → String
  | [] => "No rules registered."
  | stats =>
    "Rules:\n" ++ String.intercalate "\n" (stats.map fun r =>
      "  " ++ r.id.text ++ " " ++ r.source ++ " => " ++ r.replacement ++ "  ("
        ++ toString r.hits ++ " hits)")

namespace Console

def ofCompiler (compiler : Compiler) : Console :=
  ⟨compiler, true, false, false, 0⟩

def engine (c : Console) : Engine :=
  c.compiler.engine

def withEngine (c : Console) (engine : Engine) : Console :=
  { c with compiler := { c.compiler with engine } }

def totalHits (c : Console) : Nat :=
  c.engine.rules.totalHits

def parses (c : Console) (text : String) : Bool :=
  (c.compiler.parse text consoleOrigin).isOk

def loadRules (c : Console) (files : Files) (path : String) :
    Except ConsoleError String × Console :=
  match readRules files path with
  | .error error => (.error error, c)
  | .ok specs =>
    match c.engine.register specs with
    | (.ok count, engine) =>
      (.ok ("Loaded " ++ toString count ++ " rules from " ++ path), c.withEngine engine)
    | (.error error, engine) => (.error (.batch error), c.withEngine engine)

def perform (c : Console) (files : Files) : Command → Except ConsoleError String × Console
  | .help => (.ok helpText, c)
  | .quit => (.ok "Goodbye!", { c with running := false })
  | .quiet => (.ok ("Quiet mode: " ++ onOff !c.quiet), { c with quiet := !c.quiet })
  | .rule spec =>
    match c.engine.addRule spec with
    | .ok (id, engine) =>
      (.ok ("Rule " ++ id.text ++ " added: " ++ spec.source ++ " => " ++ spec.replacement),
        c.withEngine engine)
    | .error error => (.error (.rule error), c)
  | .trace state =>
    let enabled := state.getD !c.engine.trace.enabled
    (.ok ("Trace: " ++ onOff enabled), c.withEngine (c.engine.setDebugTrace enabled))
  | .rules => (.ok (rulesText c.engine.ruleStats), c)
  | .log =>
    let (entries, engine) := c.engine.takeTrace
    (.ok (traceText entries), c.withEngine engine)
  | .dump => (.ok ("Tree dump: " ++ onOff !c.dump), { c with dump := !c.dump })
  | .load path => c.loadRules files path

/-- The text of a rewritten unit, with its outline if the user wants it. -/
def resultText (c : Console) (a : Arena) : Except Fault String := do
  let text ← a.source
  match c.dump, a.root with
  | true, some root => pure (text ++ "\n" ++ (← a.outlineOf root))
  | _, _ => pure text

def execute (c : Console) (code : String) : Except ConsoleError Execution × Console :=
  let before := c.totalHits
  let (result, compiler) := c.compiler.compileUnit code consoleOrigin
  let c := { c with compiler }
  match result with
  | .error error => (.error (.unit error), c)
  | .ok a =>
    match c.resultText a with
    | .error f => (.error (.failure (.rewrite (.fault f))), c)
    | .ok output => (.ok ⟨output, c.totalHits - before⟩, { c with units := c.units + 1 })

end Console

end SnippetRewrite
