import SnippetRewrite.Rule.Instance

/-!
Registered rules in the order of their registration, each with the number of times it was applied.
The first rule that matches wins.
-/

namespace SnippetRewrite

/-- The place of a rule in the order of registration. -/
abbrev RuleId := Nat

def RuleId.text (id : RuleId) : String :=
  "#" ++ toString id

structure Rule where
  pattern : Pattern
  template : Template
  hits : Nat
deriving Repr

structure RuleStats where
  id : RuleId
  source : String
  replacement : String
  hits : Nat
deriving DecidableEq, Repr

def Rule.stats (r : Rule) (id : RuleId) : RuleStats :=
  ⟨id, r.pattern.source, r.template.source, r.hits⟩

structure RuleStore where
  rules : List Rule
deriving Repr

namespace RuleStore

def empty : RuleStore := ⟨[]⟩

def size (s : RuleStore) : Nat :=
  s.rules.length

def nextId (s : RuleStore) : RuleId :=
  s.size

/-- Appends a rule that has never been applied. -/
def push (s : RuleStore) (p : Pattern) (t : Template) : RuleStore :=
  ⟨s.rules ++ [⟨p, t, 0⟩]⟩

def get? (s : RuleStore) (id : RuleId) : Option Rule :=
  s.rules[id]?

def recordHit (s : RuleStore) (id : RuleId) : RuleStore :=
  ⟨s.rules.modify id fun r => { r with hits := r.hits + 1 }⟩

def stats (s : RuleStore) : List RuleStats :=
  s.rules.zipIdx.map fun (r, id) => r.stats id

def totalHits (s : RuleStore) : Nat :=
  (s.rules.map Rule.hits).foldl (· + ·) 0

/-- The first of some rules, numbered from `id` on, whose pattern matches the subtree at a node. -/
def firstAmong (m : Matcher) (a : Arena) (node : NodeId) :
    RuleId → List Rule → Except Fault (Option (RuleId × Rule × Bindings))
  | _, [] => .ok none
  | id, r :: rest => do
    match ← m.run r.pattern a node with
    | some b => pure (some (id, r, b))
    | none => firstAmong m a node (id + 1) rest

/-- The first rule whose pattern matches the subtree at a node, with the bindings. -/
def firstMatch (s : RuleStore) (m : Matcher) (a : Arena) (node : NodeId) :
    Except Fault (Option (RuleId × Rule × Bindings)) :=
  firstAmong m a node 0 s.rules

end RuleStore

end SnippetRewrite
