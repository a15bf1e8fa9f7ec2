import SnippetRewrite.Parse.Grammar

/-!
What functions, closures and methods have in common: parameters, captured variables and a return
type.
-/

namespace SnippetRewrite

/-- The parts of a function before its body. -/
structure Signature (ν : Type) where
  params : ν
  uses : Option ν
  result : Option ν

def Signature.slots {ν : Type} (s : Signature ν) (body : Option ν) : List (Option ν) :=
  [some s.params, s.uses, body, s.result]

namespace Grammar

variable {m : Type → Type} {ν : Type} [Monad m] [MonadExceptOf SyntaxFailure m] [Nodes m ν]

def param (g : Grammar m ν) : Reader m ν := do
  let line ← Reader.here
  let name ← Nodes.name (← g.identifier) line
  let default ← if ← Reader.acceptSymbol "=" then some <$> g.conditional else pure none
  Nodes.fixed .param [some name, default] line

def capturedVariable (g : Grammar m ν) : Reader m ν := do
  let line ← Reader.here
  Nodes.var (← g.identifier) line

def uses (g : Grammar m ν) (line : Nat) : Reader m (Option ν) := do
  if ← Reader.acceptWord "use" then
    Reader.expectSymbol "("
    let captured ← g.items ")" g.capturedVariable
    some <$> Nodes.list .closureUses captured line
  else pure none

/-- A return type, if there is one; a question mark in front belongs to its name. -/
def resultType (g : Grammar m ν) : Reader m (Option ν) := do
  if ← Reader.acceptSymbol ":" then
    let line ← Reader.here
    let mark := if ← Reader.acceptSymbol "?" then "?" else ""
    some <$> Nodes.name (mark ++ (← g.identifier)) line
  else pure none

def signature (g : Grammar m ν) (line : Nat) : Reader m (Signature ν) := do
  Reader.expectSymbol "("
  let params ← Nodes.list .paramList (← g.items ")" g.param) line
  let uses ← g.uses line
  let result ← g.resultType
  pure ⟨params, uses, result⟩

end Grammar

end SnippetRewrite
