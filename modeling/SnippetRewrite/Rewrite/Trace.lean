import SnippetRewrite.Rule.Store

/-!
The log of applied rewrites: a queue of bounded length. While it is enabled each rewrite enters it,
and when it is full the oldest entry leaves.
-/

namespace SnippetRewrite

structure Location where
  origin : String
  line : Nat
deriving DecidableEq, Repr

def Location.text (l : Location) : String :=
  l.origin ++ ":" ++ toString l.line

/-- An applied rewrite: the rule, the place, and the text there before and after. -/
structure TraceEntry where
  rule : RuleId
  location : Location
  before : String
  after : String
deriving DecidableEq, Repr

def TraceEntry.text (e : TraceEntry) : String :=
  e.location.text ++ " rule " ++ e.rule.text ++ ": " ++ e.before ++ " => " ++ e.after

structure TraceLog where
  enabled : Bool
  capacity : Nat
  /-- The entries, oldest first. -/
  entries : List TraceEntry
  /-- How many entries had to leave for newer ones. -/
  evicted : Nat
deriving DecidableEq, Repr

namespace TraceLog

def new (enabled : Bool) (capacity : Nat) : TraceLog :=
  ⟨enabled, capacity, [], 0⟩

def setEnabled (log : TraceLog) (enabled : Bool) : TraceLog :=
  { log with enabled }

/-- The oldest entries leave, each counted, until there is room for one more. -/
def makeRoom (capacity : Nat) : List TraceEntry → Nat → List TraceEntry × Nat
  | [], evicted => ([], evicted)
  | oldest :: rest, evicted =>
    if (oldest :: rest).length ≥ capacity then makeRoom capacity rest (evicted + 1)
    else (oldest :: rest, evicted)

/-- Appends an entry. A disabled log and one without capacity stay as they are. -/
def record (log : TraceLog) (entry : TraceEntry) : TraceLog :=
  if !log.enabled || log.capacity = 0 then log
  else
    let (entries, evicted) := makeRoom log.capacity log.entries log.evicted
    { log with entries := entries ++ [entry], evicted }

def take (log : TraceLog) : List TraceEntry × TraceLog :=
  (log.entries, { log with entries := [] })

def clear (log : TraceLog) : TraceLog :=
  { log with entries := [] }

end TraceLog

end SnippetRewrite
