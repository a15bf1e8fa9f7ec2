import SnippetRewrite.Console.Command
import SnippetRewrite.Json.Settings

/-!
Errors that a user of the console meets. Each has a chain of messages, from what could not be done
to why.
-/

namespace SnippetRewrite

inductive ConsoleError where
  | command (error : CommandError)
  | unit (error : UnitError)
  | rule (error : CompileError)
  | failure (failure : Failure)
  | rulesUnreadable (path reason : String)
  | rulesMalformed (path : String)
  | batch (error : BatchError)
  /-- The rules of a file given on the command line were not registered. -/
  | registering (path : String) (error : BatchError)
  /-- The settings given on the command line were not loaded. -/
  | settings (path : String) (error : ConfigError)
  /-- The file given on the command line could not be read. -/
  | file (path reason : String)

/-- The messages of a batch; those of a broken rule begin with its place. -/
def BatchError.chain : BatchError → List String
  | broken index spec error =>
    ("rule " ++ toString index ++ " (`" ++ spec.source ++ "` => `" ++ spec.replacement ++ "`)")
      :: error.chain
  | refused error => error.chain

namespace ConsoleError

def chain : ConsoleError → List String
  | command error => [error.message]
  | unit error => error.chain
  | rule error => error.chain
  | failure f => f.chain
  | rulesUnreadable path reason => ["reading rules file " ++ path, reason]
  | rulesMalformed path => ["parsing rules file " ++ path, "malformed JSON"]
  | batch error => error.chain
  | registering path error => ("registering " ++ path) :: error.chain
  | settings path error => ("loading config " ++ path) :: Failure.chain (.config error)
  | file path reason => ["reading " ++ path, reason]

def headline (e : ConsoleError) : String :=
  e.chain.headD ""

def inline (e : ConsoleError) : String :=
  String.intercalate ": " e.chain

/-- A text whose lines, but for the first, begin with a margin. -/
def hanging (margin text : String) : String :=
  String.ofList (text.toList.flatMap fun c => if c = '\n' then '\n' :: margin.toList else [c])

/-- Causes below each other with their numbers. -/
def numberedCauses (causes : List String) : String :=
  String.join (causes.zipIdx.map fun (text, n) =>
    let number := toString n
    "\n" ++ String.ofList (List.replicate (5 - number.length) ' ') ++ number ++ ": "
      ++ hanging "       " text)

/-- The outermost message and the causes below it. -/
def listing (e : ConsoleError) : String :=
  match e.chain with
  | [] => ""
  | [text] => text
  | [text, cause] => text ++ "\n\nCaused by:\n    " ++ hanging "    " cause
  | text :: causes => text ++ "\n\nCaused by:" ++ numberedCauses causes

end ConsoleError

def readRules (files : Files) (path : String) : Except ConsoleError (List RuleSpec) :=
  match files path with
  | .error reason => .error (.rulesUnreadable path reason)
  | .ok text =>
    match RuleSpec.listOfText? text with
    | some specs => .ok specs
    | none => .error (.rulesMalformed path)

end SnippetRewrite
