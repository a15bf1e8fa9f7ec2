import SnippetRewrite.Console.Collector
import SnippetRewrite.Console.State

/-!
The dialogue with a user: lines go in, events come out. A line that begins with a dot is a command
unless earlier lines wait for more; other lines are collected and rewritten once they are complete.
-/

namespace SnippetRewrite

inductive Event where
  | output (text : String)
  | error (text : String)
  /-- The input, repeated where it is not visible by itself. -/
  | echo (code : String)
  | result (execution : Execution) (quiet : Bool)
deriving DecidableEq, Repr

namespace Event

/-- The line with the number of rewrites and the time they took. -/
def countText (rewrites : Nat) (elapsed : String) : String :=
  "=> " ++ toString rewrites ++ " rewrite" ++ (if rewrites = 1 then "" else "s") ++ " ("
    ++ elapsed ++ "ms)"

def outputText (elapsed : String) : Event → String
  | output text => if text = "" then "" else text ++ "\n"
  | error _ => ""
  | echo code => ">> " ++ code ++ "\n"
  | result execution quiet =>
    execution.output ++ "\n"
      ++ if quiet then "" else countText execution.rewrites elapsed ++ "\n"

def errorText : Event → String
  | error text => text ++ "\n"
  | _ => ""

end Event

structure Dialogue where
  console : Console
  collector : Collector

namespace Dialogue

def ofConsole (console : Console) : Dialogue :=
  ⟨console, .empty⟩

def command (d : Dialogue) (files : Files) (line : String) : List Event × Dialogue :=
  match Command.parse line with
  | .error error => ([.error ("Error: " ++ error.message)], d)
  | .ok command =>
    match d.console.perform files command with
    | (.ok text, console) => ([.output text], { d with console })
    | (.error error, console) => ([.error ("Error: " ++ error.inline)], { d with console })

def evaluate (d : Dialogue) (echoes : Bool) (code : String) : List Event × Dialogue :=
  let echo := if echoes then [Event.echo code] else []
  match d.console.execute code with
  | (.ok execution, console) =>
    (echo ++ [.result execution console.quiet], { d with console })
  | (.error error, console) =>
    (echo ++ [.error ("Error: " ++ error.headline)], { d with console })

/-- Takes a line. Blank lines between texts are ignored. -/
def feed (d : Dialogue) (files : Files) (echoes : Bool) (line : String) : List Event × Dialogue :=
  match d.collector.isCollecting, trim line.toList with
  | false, [] => ([], d)
  | false, '.' :: _ => d.command files line
  | _, _ =>
    match d.collector.feed d.console.parses line with
    | (none, collector) => ([], { d with collector })
    | (some code, collector) => { d with collector }.evaluate echoes code

def greeting (d : Dialogue) : String :=
  "Splice REPL v" ++ version ++ "\nRules: " ++ toString d.console.engine.rules.size
    ++ "\nType .help for help, .quit to exit\n\n"

/-- The text at the end of the input; the user has not said goodbye. -/
def farewell : String := "Goodbye!\n"

/-- The counts at the end, unless the user wants quiet. -/
def closing (d : Dialogue) : String :=
  if d.console.quiet then ""
  else
    "\nSession complete: " ++ toString d.console.units ++ " snippets rewritten, "
      ++ toString d.console.engine.rules.size ++ " rules, " ++ toString d.console.totalHits
      ++ " rewrites applied.\n"

end Dialogue

end SnippetRewrite
