import SnippetRewrite.Rewrite.Engine

/-!
Commands of the console: lines that begin with a dot.
-/

namespace SnippetRewrite

inductive Command where
  | help
  | quit
  /-- Toggles the counts behind results. -/
  | quiet
  | rule (spec : RuleSpec)
  /-- Switches tracing, or toggles it. -/
  | trace (state : Option Bool)
  | rules
  | log
  /-- Toggles the outline behind results. -/
  | dump
  | load (path : String)
deriving DecidableEq, Repr

inductive CommandError where
  | noDot
  | empty
  | ruleUsage
  | traceUsage
  | loadUsage
  | unknown (name : String)
deriving DecidableEq, Repr

def CommandError.message : CommandError → String
  | noDot => "Commands must start with '.'"
  | empty => "Empty command"
  | ruleUsage => "Usage: .rule <from> => <to>"
  | traceUsage => "Usage: .trace [on|off]"
  | loadUsage => "Usage: .load <rules.json>"
  | unknown name => "Unknown command: ." ++ name

namespace Command

/-- A rule written with an arrow between its sides. The first side must not be blank. -/
def ruleOf (argument : List Char) : Except CommandError Command :=
  match cutAt "=>".toList argument with
  | none => .error .ruleUsage
  | some (source, replacement) =>
    match trim source with
    | [] => .error .ruleUsage
    | source => .ok (.rule ⟨String.ofList source, String.ofList (trim replacement)⟩)

def ofName (name : String) (argument : List Char) : Except CommandError Command :=
  match name with
  | "" => .error .empty
  | "help" | "h" => .ok .help
  | "quit" | "q" | "exit" => .ok .quit
  | "quiet" => .ok .quiet
  | "rule" => ruleOf argument
  | "trace" =>
    match String.ofList argument with
    | "" => .ok (.trace none)
    | "on" => .ok (.trace (some true))
    | "off" => .ok (.trace (some false))
    | _ => .error .traceUsage
  | "rules" => .ok .rules
  | "log" => .ok .log
  | "dump" => .ok .dump
  | "load" =>
    if argument.isEmpty then .error .loadUsage else .ok (.load (String.ofList argument))
  | _ => .error (.unknown name)

/-- Reads a command: a dot, a name, and an argument behind blanks. -/
def parse (line : String) : Except CommandError Command :=
  match trim line.toList with
  | '.' :: body =>
    let name := body.takeWhile fun c => !isBlank c
    ofName (String.ofList name) (trim (body.drop name.length))
  | _ => .error .noDot

/-- The file that a line asks for, if it is a command that reads one. -/
def path? (line : String) : Option String :=
  match parse line with
  | .ok (load path) => some path
  | _ => none

end Command

end SnippetRewrite
