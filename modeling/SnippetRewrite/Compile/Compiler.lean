import SnippetRewrite.Compile.Pipeline
import SnippetRewrite.Rule.Catalogue

/-!
The compiler: it reads units and sends them through the pipeline, whose rewrite stage uses the
engine.
-/

namespace SnippetRewrite

/-- The files that can be read: the text under a path, or why there is none. -/
abbrev Files := String → Except String String

/-- Registers the catalogue and answers how many rules it has; stops at a rule that does not
compile. -/
def Engine.addCatalogue (e : Engine) : Except CompileError Nat × Engine :=
  let specs := Catalogue.all.map fun r => RuleSpec.mk r.source r.replacement
  match e.addRules specs with
  | (.ok (), e) => (.ok specs.length, e)
  | (.error error, e) => (.error error, e)

structure Compiler where
  engine : Engine
  pipeline : Pipeline
  /-- The rewrite stage that the compiler installed. -/
  hook : StageId

namespace Compiler

/-- A compiler whose identifiers may begin with the capture sigil of the settings. -/
def new (config : Config) : Except Failure Compiler := do
  config.validate.mapError .config
  let engine := Engine.new config.captureSigil config
  let engine ←
    if config.builtinRules then
      match engine.addCatalogue with
      | (.ok _, engine) => pure engine
      | (.error error, _) => throw (.rule error)
    else pure engine
  let (hook, pipeline) := Pipeline.empty.installRewrite
  pure ⟨engine, pipeline, hook⟩

def parse (c : Compiler) (source origin : String) : Except ParseError Arena :=
  parseUnit c.engine.readerSigil source origin

def compileUnit (c : Compiler) (source origin : String) : Except UnitError Arena × Compiler :=
  match c.parse source origin with
  | .error error => (.error (.parse error), c)
  | .ok a =>
    let (result, engine) := c.pipeline.run c.engine a
    (result, { c with engine })

/-- Compiles a file, whose path is the label of its text. -/
def compileFile (c : Compiler) (files : Files) (path : String) :
    Except UnitError Arena × Compiler :=
  match files path with
  | .ok source => c.compileUnit source path
  | .error reason => (.error (.parse ⟨path, 0, 0, reason⟩), c)

def rewriteSource (c : Compiler) (source origin : String) : Except Failure String × Compiler :=
  match c.compileUnit source origin with
  | (.error error, c) => (.error (.unit error), c)
  | (.ok a, c) => (a.source.mapError fun f => .rewrite (.fault f), c)

end Compiler

end SnippetRewrite
