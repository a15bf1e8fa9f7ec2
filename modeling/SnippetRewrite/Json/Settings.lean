import SnippetRewrite.Compile.Compiler
import SnippetRewrite.Json.Record

/-!
Settings and rules as JSON texts and files. Settings that are not given have their defaults; a rules
file is a list of records with the texts `from` and `to`.
-/

namespace SnippetRewrite

namespace Config

def fieldNames : List String :=
  ["max_rewrites_per_node", "max_depth", "capture_sigil", "debug_trace", "trace_capacity",
   "unwrap_single_statements", "builtin_rules"]

def ofRecord? (fields : List (String × Json)) : Option Config := do
  let base : Config := {}
  pure
    { maxRewritesPerNode :=
        ← Json.fieldOr? fields "max_rewrites_per_node" Json.asNat? base.maxRewritesPerNode
      maxDepth := ← Json.fieldOr? fields "max_depth" Json.asNat? base.maxDepth
      captureSigil := ← Json.fieldOr? fields "capture_sigil" Json.asChar? base.captureSigil
      debugTrace := ← Json.fieldOr? fields "debug_trace" Json.asBool? base.debugTrace
      traceCapacity := ← Json.fieldOr? fields "trace_capacity" Json.asNat? base.traceCapacity
      unwrapSingleStatements :=
        ← Json.fieldOr? fields "unwrap_single_statements" Json.asBool? base.unwrapSingleStatements
      builtinRules := ← Json.fieldOr? fields "builtin_rules" Json.asBool? base.builtinRules }

def ofJson (j : Json) : Except ConfigError Config :=
  match (j.record? fieldNames).bind ofRecord? with
  | none => .error .malformed
  | some config => config.validate.map fun _ => config

def ofText (text : String) : Except ConfigError Config :=
  match Json.read? text with
  | none => .error .malformed
  | some j => ofJson j

def ofFile (files : Files) (path : String) : Except ConfigError Config :=
  match files path with
  | .ok text => ofText text
  | .error reason => .error (.unreadable path reason)

end Config

namespace RuleSpec

def ofJson? (j : Json) : Option RuleSpec := do
  let fields ← j.record? ["from", "to"]
  let source ← Json.field? fields "from" Json.asString?
  let replacement ← Json.field? fields "to" Json.asString?
  pure ⟨← source, ← replacement⟩

/-- The rules of a rules file. -/
def listOfText? (text : String) : Option (List RuleSpec) :=
  match Json.read? text with
  | some (.array items) => items.mapM ofJson?
  | _ => none

end RuleSpec

end SnippetRewrite
