import SnippetRewrite.Parse.Token

/-!
The settings of a rewrite engine and the conditions on them.
-/

namespace SnippetRewrite

structure Config where
  /-- Applications at one position before a rule counts as cyclic. -/
  maxRewritesPerNode : Nat := 10
  /-- Rewritten positions that may stand directly inside each other. -/
  maxDepth : Nat := 2048
  captureSigil : Char := defaultSigil
  debugTrace : Bool := false
  /-- Entries that the trace log keeps. -/
  traceCapacity : Nat := 1024
  /-- Whether statement lists with one statement are transparent to patterns. -/
  unwrapSingleStatements : Bool := true
  /-- Whether the engine starts with the rules of the catalogue. -/
  builtinRules : Bool := false
deriving DecidableEq, Repr, Inhabited

inductive ConfigError where
  /-- A text that does not describe settings. -/
  | malformed
  | unreadable (path reason : String)
  | sigil (c : Char)
  | noRewrites
  | noDepth
  | other (text : String)
deriving DecidableEq, Repr

def ConfigError.message : ConfigError → String
  | malformed => "malformed settings"
  | unreadable path reason => path ++ ": " ++ reason
  | sigil c => "capture sigil `" ++ String.singleton c ++ "` clashes with host syntax"
  | noRewrites => "max_rewrites_per_node must be at least 1"
  | noDepth => "max_depth must be at least 1"
  | other text => text

/-- Checks the sigil first, then the two limits. -/
def Config.validate (c : Config) : Except ConfigError Unit :=
  if !isValidSigil c.captureSigil then .error (.sigil c.captureSigil)
  else if c.maxRewritesPerNode = 0 then .error .noRewrites
  else if c.maxDepth = 0 then .error .noDepth
  else .ok ()

end SnippetRewrite
