import SnippetRewrite.Proofs.Rewrite.Applications

/-!
Registering rules, one by one and in batches. What a rule compiles to depends on the sigils of the
engine only, so that the rules of a batch, all of which have been compiled before, are registered
without a failure in between. Main statement: however an engine has been used, its rules are those
of the calls that succeeded, in the order of the calls, and a call that fails leaves it as it was.
-/

namespace SnippetRewrite

namespace Engine

-- how a rule is compiled plays no part here
attribute [local irreducible] SnippetReader.rule

def compile (e : Engine) (spec : RuleSpec) : Except CompileError (Pattern × Template) :=
  e.snippets.rule spec.source spec.replacement

/-- The engine with further rules, which have never been applied. -/
def append (e : Engine) (sides : List (Pattern × Template)) : Engine :=
  { e with rules := ⟨e.rules.rules ++ sides.map fun side => ⟨side.1, side.2, 0⟩⟩ }

/-- A call to an engine: a rule is registered, with or without the reason if it is not, a batch of
rules is registered, or a pass over a unit is made. -/
inductive Call where
  | add (spec : RuleSpec)
  | tryAdd (spec : RuleSpec)
  | register (specs : List RuleSpec)
  | process (steps : Nat) (a : Arena)

inductive Reply where
  | added (accepted : Bool)
  | tried (result : Except CompileError RuleId)
  | registered (result : Except BatchError Nat)
  | processed (result : Except RewriteError Summary) (a : Arena)

def answer (e : Engine) : Call → Reply × Engine
  | .add spec =>
    match e.addRule spec with
    | .ok (_, e) => (.added true, e)
    | .error _ => (.added false, e)
  | .tryAdd spec =>
    match e.addRule spec with
    | .ok (id, e) => (.tried (.ok id), e)
    | .error error => (.tried (.error error), e)
  | .register specs =>
    let (result, e) := e.register specs
    (.registered result, e)
  | .process steps a =>
    let ⟨result, e, a⟩ := e.processWithin steps a
    (.processed result a, e)

/-- The rules that a call has registered according to the answer. -/
def Call.accepted : Call → Reply → List RuleSpec
  | .add spec, .added true => [spec]
  | .tryAdd spec, .tried (.ok _) => [spec]
  | .register specs, .registered (.ok _) => specs
  | _, _ => []

def afterCalls (e : Engine) (calls : List Call) : Engine :=
  calls.foldl (fun e call => (e.answer call).2) e

/-- The rules that some calls have registered according to the answers. -/
def accepted : Engine → List Call → List RuleSpec
  | _, [] => []
  | e, call :: rest => call.accepted (e.answer call).1 ++ accepted (e.answer call).2 rest

/-- What a call does. If it fails, nothing has changed; if it succeeds, all of its rules stand behind
those from before, which are as they were, and the answer is their number. -/
inductive Answers (e : Engine) : Call → Reply → Engine → Prop
  | addFails {spec : RuleSpec} {error : CompileError} (h : e.compile spec = .error error) :
    Answers e (.add spec) (.added false) e
  | adds {spec : RuleSpec} {side : Pattern × Template} (h : e.compile spec = .ok side) :
    Answers e (.add spec) (.added true) (e.append [side])
  | tryFails {spec : RuleSpec} {error : CompileError} (h : e.compile spec = .error error) :
    Answers e (.tryAdd spec) (.tried (.error error)) e
  | tries {spec : RuleSpec} {side : Pattern × Template} (h : e.compile spec = .ok side) :
    Answers e (.tryAdd spec) (.tried (.ok e.rules.nextId)) (e.append [side])
  /-- The error is that of the first rule of the batch that does not compile. -/
  | registerFails {before after : List RuleSpec} {spec : RuleSpec} {error : CompileError}
    (hbefore : ∀ other ∈ before, ∃ side, e.compile other = .ok side)
    (h : e.compile spec = .error error) :
    Answers e (.register (before ++ spec :: after))
      (.registered (.error (.broken (before.length + 1) spec error))) e
  /-- Once all rules compile, none is refused when it is registered. -/
  | registers {specs : List RuleSpec} {sides : List (Pattern × Template)}
    (h : specs.map e.compile = sides.map .ok) (hadd : e.addRules specs = (.ok (), e.append sides)) :
    Answers e (.register specs) (.registered (.ok specs.length)) (e.append sides)
  | processes {steps : Nat} {a b : Arena} {result : Except RewriteError Summary} {e' : Engine}
    (hsides : e'.rules.sides = e.rules.sides) (hsnippets : e'.snippets = e.snippets) :
    Answers e (.process steps a) (.processed result b) e'

/-- The rules of the engine are those of a list, in this order. -/
structure Registered (e : Engine) (specs : List RuleSpec) : Prop where
  compiled : specs.map e.compile = e.rules.sides.map .ok
  ids : e.ruleStats.map RuleStats.id = List.range specs.length
  texts : (e.ruleStats.map fun s => (⟨s.source, s.replacement⟩ : RuleSpec)) = specs
  nextId_eq : e.rules.nextId = specs.length

variable {e e' : Engine} {spec : RuleSpec} {specs : List RuleSpec}
  {sides : List (Pattern × Template)}

/-! ### Compiling and registering -/

theorem addRule_eq (e : Engine) (spec : RuleSpec) :
    e.addRule spec = (e.compile spec).map fun side => (e.rules.nextId, e.append [side]) := by
  rw [addRule, compile]
  cases e.snippets.rule spec.source spec.replacement <;> rfl

@[simp] theorem snippets_append (e : Engine) (sides : List (Pattern × Template)) :
    (e.append sides).snippets = e.snippets := rfl

theorem compile_congr (h : e'.snippets = e.snippets) : e'.compile = e.compile := by
  funext spec
  rw [compile, h, compile]

theorem sides_append (e : Engine) (sides : List (Pattern × Template)) :
    (e.append sides).rules.sides = e.rules.sides ++ sides := by
  simp [append, RuleStore.sides, Rule.sides, Function.comp_def]

theorem append_nil (e : Engine) : e.append [] = e := by
  simp [append]

theorem append_append (e : Engine) (sides more : List (Pattern × Template)) :
    (e.append sides).append more = e.append (sides ++ more) := by
  simp [append]

theorem addRules_of_compiled (h : specs.map e.compile = sides.map .ok) :
    e.addRules specs = (.ok (), e.append sides) := by
  induction specs generalizing e sides with
  | nil =>
      obtain rfl : sides = [] := List.map_eq_nil_iff.mp h.symm
      exact congrArg (Prod.mk _) e.append_nil.symm
  | cons spec rest ih =>
      obtain ⟨side, more, rfl, hside, hmore⟩ := List.map_eq_cons_iff.mp h.symm
      rw [addRules_cons, addRule_eq, ← hside]
      -- the engine has one more rule now, but compiles the others as before
      have hrest : rest.map (e.append [side]).compile = more.map .ok := by
        rw [compile_congr (e.snippets_append [side]), hmore]
      refine (ih hrest).trans ?_
      rw [append_append]
      rfl

theorem findBroken_cons (e : Engine) (index : Nat) (spec : RuleSpec) (rest : List RuleSpec) :
    e.findBroken index (spec :: rest) =
      match e.compile spec with
      | .ok _ => e.findBroken (index + 1) rest
      | .error error => some (.broken index spec error) := rfl

/-- Either all rules of a batch compile, or one of them is the first that does not. -/
theorem findBroken_or (e : Engine) (index : Nat) (specs : List RuleSpec) :
    (∃ sides : List (Pattern × Template), specs.map e.compile = sides.map .ok ∧
        e.findBroken index specs = none) ∨
      ∃ before spec after error, specs = before ++ spec :: after ∧
        (∀ other ∈ before, ∃ side, e.compile other = .ok side) ∧ e.compile spec = .error error ∧
        e.findBroken index specs = some (.broken (before.length + index) spec error) := by
  induction specs generalizing index with
  | nil => exact .inl ⟨[], rfl, rfl⟩
  | cons spec rest ih =>
      rw [findBroken_cons]
      cases hspec : e.compile spec with
      | error error =>
          exact .inr ⟨[], spec, rest, error, rfl, by simp, hspec, by simp⟩
      | ok side =>
          dsimp only
          -- the place in the batch is counted from `index`, which moves on with the rules
          rcases ih (index + 1) with
            ⟨sides, hsides, hnone⟩ | ⟨before, x, after, error, rfl, hbefore, hx, hsome⟩
          · exact .inl ⟨side :: sides, by simp [hspec, hsides], hnone⟩
          · refine .inr ⟨spec :: before, x, after, error, rfl, ?_, hx, ?_⟩
            · intro other hother
              rcases List.mem_cons.mp hother with rfl | hother
              · exact ⟨side, hspec⟩
              · exact hbefore other hother
            · have hplace : before.length + (index + 1) = (spec :: before).length + index := by
                rw [List.length_cons]
                omega
              rw [hsome, hplace]

theorem snippets_processWithin (e : Engine) (steps : Nat) (a : Arena) :
    (e.processWithin steps a).engine.snippets = e.snippets := by
  rw [processWithin]
  split
  · rfl
  · split
    · rfl
    · dsimp only
      split <;> rfl

/-! ### Calls -/

theorem answers (e : Engine) (call : Call) : e.Answers call (e.answer call).1 (e.answer call).2 := by
  cases call with
  | add spec =>
      rw [answer, addRule_eq]
      cases h : e.compile spec with
      | error error => exact .addFails h
      | ok side => exact .adds h
  | tryAdd spec =>
      rw [answer, addRule_eq]
      cases h : e.compile spec with
      | error error => exact .tryFails h
      | ok side => exact .tries h
  | register specs =>
      rw [answer, register]
      rcases e.findBroken_or 1 specs with
        ⟨sides, hsides, hnone⟩ | ⟨before, spec, after, error, rfl, hbefore, hspec, hsome⟩
      · have hadd := addRules_of_compiled hsides
        rw [hnone]
        simp only [hadd]
        exact .registers hsides hadd
      · rw [hsome]
        exact .registerFails hbefore hspec
  | process steps a =>
      exact .processes (e.sides_processWithin steps a) (e.snippets_processWithin steps a)

theorem Answers.snippets_eq {call : Call} {reply : Reply} (h : e.Answers call reply e') :
    e'.snippets = e.snippets := by
  cases h with
  | processes _ hsnippets => exact hsnippets
  | _ => rfl

theorem snippets_afterCalls (e : Engine) (calls : List Call) :
    (e.afterCalls calls).snippets = e.snippets := by
  induction calls generalizing e with
  | nil => rfl
  | cons call rest ih => exact (ih _).trans (e.answers call).snippets_eq

/-- After a call the compiled sides of the rules that it has registered are behind the others. -/
theorem Answers.compiled {call : Call} {reply : Reply} (h : e.Answers call reply e')
    (hspecs : specs.map e.compile = e.rules.sides.map .ok) :
    (specs ++ call.accepted reply).map e'.compile = e'.rules.sides.map .ok := by
  rw [compile_congr h.snippets_eq, List.map_append, hspecs]
  cases h with
  | addFails _ | tryFails _ | registerFails _ _ => exact List.append_nil _
  | adds hside | tries hside => simp [Call.accepted, hside, sides_append]
  | registers hsides _ => simp [Call.accepted, hsides, sides_append]
  | processes hsides _ => simp [Call.accepted, hsides]

/-- The rules of an engine are compiled from `specs` at first; each call adds what it has registered
to this list. -/
theorem compiled_afterCalls (hspecs : specs.map e.compile = e.rules.sides.map .ok)
    (calls : List Call) :
    (specs ++ e.accepted calls).map (e.afterCalls calls).compile =
      (e.afterCalls calls).rules.sides.map .ok := by
  induction calls generalizing e specs with
  | nil => rwa [accepted, List.append_nil]
  | cons call rest ih =>
      rw [accepted, ← List.append_assoc]
      exact ih ((e.answers call).compiled hspecs)

/-! ### The list of rules -/

theorem texts_of_compile {side : Pattern × Template} (h : e.compile spec = .ok side) :
    (⟨side.1.source, side.2.source⟩ : RuleSpec) = spec := by
  obtain ⟨hpattern, htemplate⟩ := SnippetReader.exists_snippets h
  rw [SnippetReader.source_of_snippet hpattern, SnippetReader.source_of_snippet htemplate]

theorem texts_of_compiled (h : specs.map e.compile = sides.map .ok) :
    (sides.map fun side => (⟨side.1.source, side.2.source⟩ : RuleSpec)) = specs := by
  induction specs generalizing sides with
  | nil =>
      rw [List.map_eq_nil_iff.mp h.symm]
      rfl
  | cons spec rest ih =>
      obtain ⟨side, more, rfl, hside, hmore⟩ := List.map_eq_cons_iff.mp h.symm
      rw [List.map_cons, texts_of_compile hside.symm, ih hmore.symm]

theorem registered_of_compiled (h : specs.map e.compile = e.rules.sides.map .ok) :
    e.Registered specs := by
  have hlength : e.rules.rules.length = specs.length := by
    simpa [RuleStore.sides] using (congrArg List.length h).symm
  refine ⟨h, ?_, ?_, hlength⟩
  · have hids : e.ruleStats.map RuleStats.id = e.rules.rules.zipIdx.map Prod.snd := by
      simp [ruleStats, RuleStore.stats, Rule.stats, Function.comp_def]
    rw [hids, List.zipIdx_map_snd, hlength, List.range_eq_range']
  · calc (e.ruleStats.map fun s => (⟨s.source, s.replacement⟩ : RuleSpec))
        = (e.rules.rules.zipIdx.map Prod.fst).map fun r => ⟨r.pattern.source, r.template.source⟩ := by
          simp only [ruleStats, RuleStore.stats, Rule.stats, List.map_map, Function.comp_def]
      _ = e.rules.sides.map fun side => ⟨side.1.source, side.2.source⟩ := by
          rw [List.zipIdx_map_fst, RuleStore.sides, List.map_map]
          rfl
      _ = specs := texts_of_compiled h

/-- However an engine has been used, its rules are those of the calls that succeeded, in the order of
the calls and numbered from zero, and which rules compile is still the same. A further call that
fails leaves the engine as it is; one that succeeds adds all of its rules behind the others, which
keep their counts of applications. -/
theorem afterCalls_registered (readerSigil : Char) (config : Config) (calls : List Call) :
    ((new readerSigil config).afterCalls calls).Registered
        ((new readerSigil config).accepted calls) ∧
      ((new readerSigil config).afterCalls calls).compile = (new readerSigil config).compile ∧
      ∀ call, ((new readerSigil config).afterCalls calls).Answers call
        (((new readerSigil config).afterCalls calls).answer call).1
        (((new readerSigil config).afterCalls calls).answer call).2 := by
  have hempty : ([] : List RuleSpec).map (new readerSigil config).compile =
      (new readerSigil config).rules.sides.map .ok := rfl
  refine ⟨registered_of_compiled ?_, ?_, answers _⟩
  · exact compiled_afterCalls hempty calls
  · exact compile_congr (snippets_afterCalls _ calls)

/-- The second rule of this batch does not compile, so that the first is not registered either. -/
example : ((new defaultSigil {}).answer
    (.register [⟨"$a + 0", "$a"⟩, ⟨"$a +", "$a"⟩])).2.rules.size = 0 := by
  decide +kernel

end Engine

end SnippetRewrite
