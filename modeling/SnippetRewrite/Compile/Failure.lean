import SnippetRewrite.Rewrite.Engine

/-!
Failures of a compilation: what went wrong in a unit, a stage or the settings. A failure has a
message and a chain of messages that lead to its cause.
-/

namespace SnippetRewrite

mutual

inductive Failure where
  | parse (error : ParseError)
  | rule (error : CompileError)
  | rewrite (error : RewriteError)
  | unit (error : UnitError)
  | config (error : ConfigError)

inductive UnitError where
  | parse (error : ParseError)
  | stage (name : String) (cause : Failure)

end

mutual

def Failure.message : Failure → String
  | .parse error => "Parse error: " ++ error.message
  | .rule error => "Rule error: " ++ error.message
  | .rewrite error => "Rewrite error: " ++ error.message
  | .unit error => "Unit error: " ++ error.message
  | .config error => "Configuration error: " ++ error.message

def UnitError.message : UnitError → String
  | .parse error => error.message
  | .stage name cause => "stage `" ++ name ++ "` failed: " ++ cause.message

end

mutual

/-- The messages of a failure and of its causes, outermost first. -/
def Failure.chain : Failure → List String
  | .parse error => [Failure.message (.parse error), error.message]
  | .rule error => Failure.message (.rule error) :: error.chain
  | .rewrite error => Failure.message (.rewrite error) :: error.chain
  | .unit error => Failure.message (.unit error) :: error.chain
  | .config error => [Failure.message (.config error)]

def UnitError.chain : UnitError → List String
  | .parse error => [error.message]
  | .stage name cause => UnitError.message (.stage name cause) :: cause.chain

end

/-- The rewrite error behind a stage that failed. -/
def UnitError.rewriteError? : UnitError → Option RewriteError
  | .stage _ (.rewrite error) => some error
  | _ => none

end SnippetRewrite
