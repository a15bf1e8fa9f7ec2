import SnippetRewrite.Compile.Failure

/-!
The pipeline: named stages that a unit goes through, in the order in which they were added. A stage
may change the engine, as the rewrite stage does.
-/

namespace SnippetRewrite

abbrev StageId := Nat

structure Stage where
  id : StageId
  name : String
  run : Engine → Arena → Except Failure Arena × Engine

structure Pipeline where
  stages : List Stage
  nextId : StageId

def rewriteStageName : String := "rewrite"

def rewriteUnit (e : Engine) (a : Arena) : Except Failure Arena × Engine :=
  let p := e.process a
  match p.result with
  | .ok _ => (.ok p.arena, p.engine)
  | .error error => (.error (.rewrite error), p.engine)

namespace Pipeline

def empty : Pipeline := ⟨[], 0⟩

/-- Adds a stage behind those present. -/
def push (p : Pipeline) (name : String) (run : Engine → Arena → Except Failure Arena × Engine) :
    StageId × Pipeline :=
  (p.nextId, ⟨p.stages ++ [⟨p.nextId, name, run⟩], p.nextId + 1⟩)

def installRewrite (p : Pipeline) : StageId × Pipeline :=
  p.push rewriteStageName rewriteUnit

def contains (p : Pipeline) (id : StageId) : Bool :=
  p.stages.any fun s => s.id = id

/-- Removes a stage, and answers whether it was there. -/
def remove (p : Pipeline) (id : StageId) : Bool × Pipeline :=
  (p.contains id, { p with stages := p.stages.filter fun s => s.id ≠ id })

def names (p : Pipeline) : List String :=
  p.stages.map Stage.name

/-- Sends a unit through stages up to the first that fails. -/
def runStages : List Stage → Engine → Arena → Except UnitError Arena × Engine
  | [], e, a => (.ok a, e)
  | s :: rest, e, a =>
    match s.run e a with
    | (.ok a, e) => runStages rest e a
    | (.error cause, e) => (.error (.stage s.name cause), e)

def run (p : Pipeline) (e : Engine) (a : Arena) : Except UnitError Arena × Engine :=
  runStages p.stages e a

end Pipeline

end SnippetRewrite
