import SnippetRewrite.CommandLine.Arguments
import SnippetRewrite.Console.Dialogue
import SnippetRewrite.Text.Backspace

/-!
The program as a function of its arguments, the files and the text on its input: it rewrites a
file, or holds a dialogue over the lines of its input.
-/

namespace SnippetRewrite

structure Outcome where
  code : Nat
  output : String
  errors : String
deriving DecidableEq, Repr

namespace Outcome

def success (output errors : String) : Outcome :=
  ⟨0, output, errors⟩

def failure (error : ConsoleError) : Outcome :=
  ⟨1, "", "Error: " ++ error.listing ++ "\n"⟩

end Outcome

def programName : String := "splice-repl"

def versionText : String :=
  programName ++ " " ++ version ++ "\n"

def usageText : String :=
"Interactive REPL for pattern-based source rewriting

Usage: splice-repl [OPTIONS] [FILE]

Arguments:
  [FILE]  Rewrite FILE, print the result and exit

Options:
      --config <FILE>  JSON rewrite configuration
      --rules <FILE>   JSON list of \x7b\"from\", \"to\"\x7d rules to register
      --builtin        Register the built-in rule set
      --trace          Start with rewrite tracing enabled
  -h, --help           Print help
  -V, --version        Print version
"

/-- What the program does once its options are carried out. -/
inductive Task where
  | done (outcome : Outcome)
  | converse (dialogue : Dialogue)

namespace Options

def settings (o : Options) (files : Files) : Except ConsoleError Config := do
  let config ←
    match o.config with
    | some path => (Config.ofFile files path).mapError (.settings path)
    | none => pure {}
  pure
    { config with
      builtinRules := config.builtinRules || o.builtin
      debugTrace := config.debugTrace || o.trace }

def compiler (o : Options) (files : Files) : Except ConsoleError Compiler := do
  let c ← (Compiler.new (← o.settings files)).mapError .failure
  match o.rules with
  | none => pure c
  | some path =>
    let specs ← readRules files path
    match c.engine.register specs with
    | (.ok _, engine) => pure { c with engine }
    | (.error error, _) => throw (.registering path error)

end Options

/-- Rewrites a file; the trace, if there is one, goes to the error output. -/
def rewriteFile (c : Compiler) (files : Files) (path : String) : Except ConsoleError Outcome :=
  match files path with
  | .error reason => .error (.file path reason)
  | .ok source =>
    match c.rewriteSource source path with
    | (.error f, _) => .error (.failure f)
    | (.ok output, c) =>
      let entries := if c.engine.trace.enabled then c.engine.takeTrace.1 else []
      .ok (.success (output ++ "\n") (String.join (entries.map (·.text ++ "\n"))))

namespace Request

def task (files : Files) : Request → Except ConsoleError Task
  | .help => .ok (.done (.success usageText ""))
  | .version => .ok (.done (.success versionText ""))
  | .invalid reason =>
    .ok (.done ⟨2, "", "error: " ++ reason ++ "\n\nFor more information, try '--help'.\n"⟩)
  | .run options => do
    let c ← options.compiler files
    match options.file with
    | some path => pure (.done (← rewriteFile c files path))
    | none => pure (.converse (.ofConsole (.ofCompiler c)))

end Request

/-- The lines of an input. A line feed ends a line, together with a carriage return before it. -/
def inputLines (input : List Char) : List (List Char) :=
  match input with
  | [] => []
  | c :: rest =>
    if c = '\n' then [] :: inputLines rest
    else if c = '\r' ∧ rest.head? = some '\n' then inputLines rest
    else
      match inputLines rest with
      | [] => [[c]]
      | line :: lines => (c :: line) :: lines

namespace Dialogue

/-- Feeds lines until the user quits; answers the texts for the two outputs. -/
def feedAll (files : Files) (elapsed : String) : Dialogue → List String → String × String × Dialogue
  | d, [] => (farewell, "", d)
  | d, line :: rest =>
    let (events, d) := d.feed files true line
    let output := String.join (events.map (Event.outputText elapsed))
    let errors := String.join (events.map Event.errorText)
    if d.console.running then
      let (output', errors', d) := feedAll files elapsed d rest
      (output ++ output', errors ++ errors', d)
    else (output, errors, d)

end Dialogue

/-- A whole run of the program on an input that is not a terminal, where backspaces take effect
line by line; `elapsed` stands for the time that each rewriting took. -/
def runProgram (files : Files) (elapsed : String) (arguments : List String) (input : String) :
    Outcome :=
  match (Request.ofArguments arguments).task files with
  | .error error => .failure error
  | .ok (.done outcome) => outcome
  | .ok (.converse d) =>
    let lines := (inputLines input.toList).map fun line => String.ofList (withoutBackspaces line)
    let (output, errors, last) := d.feedAll files elapsed lines
    .success (d.greeting ++ output ++ last.closing) errors

end SnippetRewrite
