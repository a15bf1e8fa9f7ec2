import SnippetRewrite.CommandLine.Program

/-!
The program at the console of the system: arguments, files, the three standard streams and a clock.
-/

namespace SnippetRewrite

/-- A reason and its number, which the system may give as a negative word. -/
def systemError (code : UInt32) (details : String) : String :=
  details.capitalize ++ " (os error " ++ toString (min code (0 - code)) ++ ")"

def readFailure (e : IO.Error) : String :=
  match e with
  | .noFileOrDirectory _ code details | .permissionDenied _ code details
  | .inappropriateType _ code details | .invalidArgument _ code details
  | .resourceExhausted _ code details => systemError code details
  | e => toString e

def readText (path : String) : IO (Except String String) := do
  try
    let bytes ← IO.FS.readBinFile path
    match String.fromUTF8? bytes with
    | some text => pure (.ok text)
    | none => pure (.error "stream did not contain valid UTF-8")
  catch e => pure (.error (readFailure e))

def readTexts (paths : List String) : IO Files := do
  let texts ← paths.mapM fun path => do pure (path, ← readText path)
  pure fun path => ((texts.find? fun t => t.1 = path).map (·.2)).getD (.error "file was not read")

/-- A line without its end. -/
def withoutLineEnd (line : String) : String :=
  match line.toList.reverse with
  | '\n' :: '\r' :: rest | '\n' :: rest => String.ofList rest.reverse
  | _ => line

/-- Prints events; `elapsed` is the time in milliseconds that they took. -/
def printEvents (events : List Event) (elapsed : Nat) : IO Unit :=
  events.forM fun e => do
    IO.print (e.outputText (toString elapsed))
    IO.eprint e.errorText

/-- Holds a dialogue over the lines of the input until it ends or the user quits. In lines
that are not typed backspaces take effect, and they are repeated on the output. -/
partial def converse (input : IO.FS.Stream) (typed : Bool) (d : Dialogue) : IO Dialogue := do
  if typed then
    IO.print d.collector.prompt
    (← IO.getStdout).flush
  let line ← input.getLine
  if line.isEmpty then
    IO.print Dialogue.farewell
    pure d
  else
    let line := withoutLineEnd line
    let line := if typed then line else String.ofList (withoutBackspaces line.toList)
    let files ← readTexts (Command.path? line).toList
    let start ← IO.monoMsNow
    let (events, d) ← IO.lazyPure fun _ => d.feed files (!typed) line
    printEvents events ((← IO.monoMsNow) - start)
    if d.console.running then converse input typed d else pure d

/-- Prints what a run leaves behind and answers its exit code. -/
def report (outcome : Outcome) : IO UInt32 := do
  IO.print outcome.output
  IO.eprint outcome.errors
  pure outcome.code.toUInt32

/-- Carries out a request and answers the exit code. -/
def serve (request : Request) : IO UInt32 := do
  match request.task (← readTexts request.paths) with
  | .error error => report (.failure error)
  | .ok (.done outcome) => report outcome
  | .ok (.converse d) =>
    IO.print d.greeting
    let input ← IO.getStdin
    let last ← converse input (← input.isTty) d
    IO.print last.closing
    pure 0

end SnippetRewrite

def main (arguments : List String) : IO UInt32 :=
  SnippetRewrite.serve (SnippetRewrite.Request.ofArguments arguments)
