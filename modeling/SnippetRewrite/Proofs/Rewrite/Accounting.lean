import SnippetRewrite.Console.State
import SnippetRewrite.Proofs.Parse.Storing
import SnippetRewrite.Proofs.Rewrite.Applications
import SnippetRewrite.Proofs.Rewrite.TraceLog

/-!
The accounts of a pass. A replacement in a unit is booked in three places: the counter of its rule,
the counts of the pass and, while it is enabled, the trace log. The replacements themselves are read
off the states of the pass, without a look at any of the three. A step books the replacement that it
makes everywhere or nowhere, so the accounts agree after any number of steps, however the pass ends.
-/

namespace SnippetRewrite

open Placement

/-! ### Replacements -/

/-- A replacement in a unit: the rule, the position, and the unit before and after. -/
structure Replacement where
  rule : RuleId
  position : NodeId
  before : Arena
  after : Arena

namespace Replacement

variable {a b c : Arena} {rs rs' : List Replacement}

/-- The replacements, one after the other and nothing else, lead from one state of a unit to another. -/
inductive Lead : Arena → List Replacement → Arena → Prop
  | nil (a : Arena) : Lead a [] a
  | cons {a b : Arena} {r : Replacement} {rs : List Replacement} (hr : r.before = a)
    (h : Lead r.after rs b) : Lead a (r :: rs) b

theorem Lead.eq_of_nil (h : Lead a [] b) : b = a := by
  cases h
  rfl

theorem Lead.append (h : Lead a rs b) (h' : Lead b rs' c) : Lead a (rs ++ rs') c := by
  induction h with
  | nil a => exact h'
  | cons hr _ ih => exact .cons hr (ih h')

/-- The entry of the trace log that tells of a replacement. -/
structure Records (r : Replacement) (entry : TraceEntry) : Prop where
  rule : entry.rule = r.rule
  location : r.before.location r.position = .ok entry.location
  before : r.before.sourceOf r.position = .ok entry.before
  after : r.after.sourceOf r.position = .ok entry.after

end Replacement

/-- The unit after an instance of the template of a rule has taken the place of a node. -/
def Arena.replaced (a : Arena) (id : NodeId) (r : Rule) (b : Bindings) : Option Arena :=
  match a.line id with
  | .error _ => none
  | .ok line =>
    match (do Edit.replaceWith id (← r.template.instantiate b line) : Edit Unit) a with
    | .ok () a => some a
    | .error _ _ => none

namespace Pass

def replacement? (p : Pass) : Option Replacement :=
  match p.stack with
  | ⟨id, [], applications, _⟩ :: _ =>
    match p.rules.firstMatch (matcher p.config) p.arena id with
    | .ok (some (i, r, b)) =>
      if applications = p.config.maxRewritesPerNode then none
      else (p.arena.replaced id r b).map (Replacement.mk i id p.arena)
    | _ => none
  | _ => none

def replacements : Nat → Pass → List Replacement
  | 0, _ => []
  | steps + 1, p =>
    match p.step with
    | .going q => p.replacement?.toList ++ replacements steps q
    | _ => p.replacement?.toList

end Pass

/-- The replacements that a pass over a unit makes, in their order. -/
def Engine.replacements (e : Engine) (steps : Nat) (a : Arena) : List Replacement :=
  match a.root with
  | none => []
  | some root =>
    if e.rules.size = 0 then []
    else
      match e.beginPass a root with
      | .going p => p.replacements steps
      | _ => []

/-! ### Counters -/

namespace RuleStore

variable {s : RuleStore} {i : RuleId} {rs : List Replacement}

def hitsOf (s : RuleStore) (i : RuleId) : Nat :=
  ((s.get? i).map Rule.hits).getD 0

def booked (s : RuleStore) (rs : List Replacement) : RuleStore :=
  rs.foldl (fun s r => s.recordHit r.rule) s

@[simp] theorem size_recordHit (s : RuleStore) (i : RuleId) : (s.recordHit i).size = s.size := by
  simp [recordHit, size]

theorem size_booked (s : RuleStore) (rs : List Replacement) : (s.booked rs).size = s.size := by
  induction rs generalizing s with
  | nil => rfl
  | cons r rs ih => exact (ih _).trans (s.size_recordHit r.rule)

theorem totalHits_cons (r : Rule) (rest : List Rule) :
    (RuleStore.mk (r :: rest)).totalHits = r.hits + (RuleStore.mk rest).totalHits := by
  simp only [totalHits, List.map_cons, List.foldl_cons]
  rw [Nat.add_comm 0]
  exact List.foldl_assoc

theorem totalHits_recordHit (h : i < s.size) : (s.recordHit i).totalHits = s.totalHits + 1 := by
  obtain ⟨rules⟩ := s
  simp only [size] at h
  simp only [recordHit]
  induction rules generalizing i with
  | nil => simp at h
  | cons r rest ih =>
      cases i with
      | zero =>
          simp only [List.modify_zero_cons, totalHits_cons]
          omega
      | succ i =>
          have hrest := ih (Nat.lt_of_succ_lt_succ h)
          simp only [List.modify_succ_cons, totalHits_cons, hrest]
          omega

theorem hitsOf_recordHit (h : i < s.size) (j : RuleId) :
    (s.recordHit i).hitsOf j = s.hitsOf j + if i = j then 1 else 0 := by
  have hsome : s.rules[i]? = some s.rules[i] := List.getElem?_eq_getElem h
  simp only [hitsOf, get?, recordHit, List.getElem?_modify]
  by_cases hij : i = j
  · subst hij
    simp [hsome]
  · simp [hij]

theorem totalHits_booked (h : ∀ r ∈ rs, r.rule < s.size) :
    (s.booked rs).totalHits = s.totalHits + rs.length := by
  induction rs generalizing s with
  | nil => rfl
  | cons r rs ih =>
      have hrest : ∀ x ∈ rs, x.rule < (s.recordHit r.rule).size := by
        simpa using fun x hx => h x (List.mem_cons_of_mem r hx)
      refine (ih hrest).trans ?_
      rw [totalHits_recordHit (h r List.mem_cons_self), List.length_cons]
      omega

theorem hitsOf_booked (h : ∀ r ∈ rs, r.rule < s.size) (i : RuleId) :
    (s.booked rs).hitsOf i = s.hitsOf i + (rs.map Replacement.rule).count i := by
  induction rs generalizing s with
  | nil => rfl
  | cons r rs ih =>
      have hrest : ∀ x ∈ rs, x.rule < (s.recordHit r.rule).size := by
        simpa using fun x hx => h x (List.mem_cons_of_mem r hx)
      refine (ih hrest).trans ?_
      rw [hitsOf_recordHit (h r List.mem_cons_self), List.map_cons, List.count_cons]
      simp only [beq_iff_eq]
      omega

/-- The number of the rule that is found is its place in the order of registration. -/
theorem lt_of_firstAmong {m : Matcher} {a : Arena} {node : NodeId} {rules : List Rule}
    {id i : RuleId} {r : Rule} {b : Bindings}
    (h : firstAmong m a node id rules = .ok (some (i, r, b))) : i < id + rules.length := by
  induction rules generalizing id with
  | nil => cases h
  | cons x rest ih =>
      obtain ⟨o, -, h⟩ := bind_eq_ok.mp h
      rw [List.length_cons]
      cases o with
      | some c =>
          cases h
          exact Nat.lt_add_of_pos_right (Nat.succ_pos _)
      | none =>
          have hrest : i < id + 1 + rest.length := ih h
          show i < id + (rest.length + 1)
          rwa [Nat.add_comm rest.length, ← Nat.add_assoc]

end RuleStore

/-! ### Steps -/

namespace Pass

variable {p q x : Pass} {root : NodeId} {f : Frame} {below : List Frame} {i : RuleId} {r : Rule}
  {b : Bindings} {rs rs' : List Replacement}

/-- Between two states of a pass some replacements were made, and all accounts tell of them. -/
structure Books (p q : Pass) (rs : List Replacement) : Prop where
  leads : Replacement.Lead p.arena rs q.arena
  registered : ∀ r ∈ rs, r.rule < p.rules.size
  rules : q.rules = p.rules.booked rs
  rewrites : q.summary.rewrites = p.summary.rewrites + rs.length
  logged : p.trace.enabled = true →
    ∃ entries, List.Forall₂ Replacement.Records rs entries ∧ q.trace = p.trace.extend entries
  unlogged : p.trace.enabled = false → q.trace = p.trace

theorem Books.enabled (h : p.Books q rs) : q.trace.enabled = p.trace.enabled := by
  cases henabled : p.trace.enabled with
  | false => rw [h.unlogged henabled, henabled]
  | true =>
      obtain ⟨entries, -, htrace⟩ := h.logged henabled
      rw [htrace, TraceLog.enabled_extend, henabled]

theorem Books.trans (h : p.Books q rs) (h' : q.Books x rs') : p.Books x (rs ++ rs') where
  leads := h.leads.append h'.leads
  registered := by
    intro r hr
    rcases List.mem_append.mp hr with hr | hr
    · exact h.registered r hr
    · have := h'.registered r hr
      rwa [h.rules, RuleStore.size_booked] at this
  rules := by rw [h'.rules, h.rules, RuleStore.booked, RuleStore.booked, RuleStore.booked,
    List.foldl_append]
  rewrites := by rw [h'.rewrites, h.rewrites, List.length_append, Nat.add_assoc]
  logged := by
    intro henabled
    obtain ⟨entries, hentries, htrace⟩ := h.logged henabled
    obtain ⟨entries', hentries', htrace'⟩ := h'.logged (h.enabled.trans henabled)
    refine ⟨entries ++ entries', List.rel_append hentries hentries', ?_⟩
    rw [htrace', htrace, TraceLog.extend, TraceLog.extend, TraceLog.extend, List.foldl_append]
  unlogged := by
    intro henabled
    rw [h'.unlogged (h.enabled.trans henabled), h.unlogged henabled]

theorem Quiet.books (h : p.Quiet q) : p.Books q [] where
  leads := h.arena ▸ .nil _
  registered := by simp
  rules := h.rules
  rewrites := h.rewrites
  logged _ := ⟨[], .nil, h.trace⟩
  unlogged _ := h.trace

/-- A step that applies no rule changes nothing but the nodes visited and the stack. -/
theorem quiet_step (h : ∀ f below i r b, ¬ p.Applies f below i r b) : p.Quiet p.step.pass := by
  have htakes := p.takes_step
  generalize p.step = s at htakes ⊢
  cases htakes with
  | apply f below i r b hstack hpending hfirst hlimit =>
      exact (h f below i r b ⟨hstack, hpending, hfirst, hlimit⟩).elim
  | _ => exact ⟨rfl, rfl, rfl, rfl, rfl⟩

theorem replacement?_eq_none (h : ∀ f below i r b, ¬ p.Applies f below i r b) :
    p.replacement? = none := by
  unfold replacement?
  split
  · rename_i id applications growth below hstack
    split
    · rename_i i r b hfirst
      split
      · rfl
      · rename_i hlimit
        exact (h _ _ _ _ _ ⟨hstack, rfl, hfirst, hlimit⟩).elim
    · rfl
  · rfl

theorem replacement?_of_applies (h : p.Applies f below i r b) :
    p.replacement? = (p.arena.replaced f.id r b).map (Replacement.mk i f.id p.arena) := by
  obtain ⟨id, pending, applications, growth⟩ := f
  obtain ⟨hstack, hpending, hfirst, hlimit⟩ := h
  simp only at hpending hfirst hlimit
  subst hpending
  simp only [replacement?, hstack, hfirst, if_neg hlimit]

theorem exists_applies_of_replacement {x : Replacement} (h : p.replacement? = some x) :
    ∃ f below rule b, p.Applies f below x.rule rule b ∧ x.position = f.id ∧ x.before = p.arena := by
  unfold replacement? at h
  split at h
  · rename_i id applications growth below hstack
    split at h
    · rename_i i rule b hfirst
      split at h
      · cases h
      · rename_i hlimit
        obtain ⟨after, -, rfl⟩ := Option.map_eq_some_iff.mp h
        exact ⟨_, below, rule, b, ⟨hstack, rfl, hfirst, hlimit⟩, rfl, rfl⟩
    · cases h
  · cases h

theorem exists_of_mem_replacements {n : Nat} {x : Replacement} (h : x ∈ p.replacements n) :
    ∃ m p', p.run m = .going p' ∧ p'.replacement? = some x := by
  induction n generalizing p with
  | zero => cases h
  | succ n ih =>
      rw [replacements] at h
      split at h
      · rename_i p₁ hstep
        rcases List.mem_append.mp h with h | h
        · exact ⟨0, p, rfl, Option.mem_toList.mp h⟩
        · obtain ⟨m, p', hrun, hr⟩ := ih h
          exact ⟨m + 1, p', by rw [run, hstep]; exact hrun, hr⟩
      · exact ⟨0, p, rfl, Option.mem_toList.mp h⟩

/-- An application that goes on has made its replacement and booked it. -/
theorem books_apply (hi : i < p.rules.size) (h : p.apply f below i r b = .going q) :
    ∃ a, p.arena.replaced f.id r b = some a ∧ p.Books q [⟨i, f.id, p.arena, a⟩] := by
  have happly := p.attempts_apply f below i r b
  rw [h] at happly
  cases happly with
  | going line before a log children hline hbefore hedit hlog =>
      have hlocation : p.arena.location f.id = .ok ⟨p.arena.origin, line⟩ := by
        simp [Arena.location, hline, Except.map]
      refine ⟨a, by simp only [Arena.replaced, hline, hedit], ?_⟩
      exact
        { leads := .cons rfl (.nil a)
          registered := by simpa using hi
          rules := rfl
          rewrites := rfl
          logged := by
            intro henabled
            -- the text before is taken only because the log is enabled
            simp only [henabled, if_true] at hbefore
            cases hsource : p.arena.sourceOf f.id with
            | error fault =>
                rw [hsource] at hbefore
                cases hbefore
            | ok text =>
                rw [hsource] at hbefore
                cases hbefore
                obtain ⟨after, hafter, hlog⟩ := bind_eq_ok.mp hlog
                cases hlog
                exact ⟨[⟨i, ⟨p.arena.origin, line⟩, text, after⟩],
                  .cons ⟨rfl, hlocation, hsource, hafter⟩ .nil, rfl⟩
          unlogged := by
            intro hdisabled
            simp only [hdisabled, Bool.false_eq_true, if_false] at hbefore
            cases hbefore
            cases hlog
            rfl }

/-- The accounts agree: one step. -/
theorem Coherent.books_step (hp : p.Coherent root)
    (hc : ∀ side ∈ p.rules.sides, Compiled side.1 side.2) :
    p.Books p.step.pass p.replacement?.toList := by
  by_cases happlies : ∃ f below i r b, p.Applies f below i r b
  · obtain ⟨f, below, i, r, b, h⟩ := happlies
    -- an application that is due succeeds, so none of the accounts is left out
    obtain ⟨q, hq⟩ := (hp.succeeds (hc _ h.sides_mem) h).going
    have hi : i < p.rules.size := by
      have := RuleStore.lt_of_firstAmong h.first
      rwa [Nat.zero_add] at this
    obtain ⟨a, ha, hbooks⟩ := books_apply hi ((step_eq_apply h).symm.trans hq)
    rw [hq, replacement?_of_applies h, ha]
    exact hbooks
  · simp only [not_exists] at happlies
    rw [replacement?_eq_none happlies]
    exact (quiet_step happlies).books

/-- A replacement leaves what the step makes of the unit. -/
theorem Coherent.after_of_replacement (hp : p.Coherent root)
    (hc : ∀ side ∈ p.rules.sides, Compiled side.1 side.2) {x : Replacement}
    (h : p.replacement? = some x) : x.after = p.step.pass.arena := by
  have hlead := (hp.books_step hc).leads
  rw [h] at hlead
  cases hlead with
  | cons _ hrest => exact hrest.eq_of_nil.symm

/-- The accounts agree: a run. -/
theorem Coherent.books_run (hp : p.Coherent root)
    (hc : ∀ side ∈ p.rules.sides, Compiled side.1 side.2) (steps : Nat) :
    p.Books (p.run steps).pass (p.replacements steps) := by
  induction steps generalizing p with
  | zero => exact Quiet.books ⟨rfl, rfl, rfl, rfl, rfl⟩
  | succ steps ih =>
      have hstep := hp.step
      have hsides := p.sides_step
      have hbooks := hp.books_step hc
      rw [Pass.run, replacements]
      cases hq : p.step with
      | going q =>
          rw [hq] at hstep hsides hbooks
          have hsides : q.rules.sides = p.rules.sides := hsides
          exact hbooks.trans (ih hstep (hsides ▸ hc))
      | finished q =>
          rw [hq] at hbooks
          exact hbooks
      | stopped e q =>
          rw [hq] at hbooks
          exact hbooks

end Pass

/-! ### Engines -/

namespace Pass

variable {p : Pass}

theorem bounded_recordTrace {log log' : TraceLog} {a : Arena} {i : RuleId} {place : Location}
    {before : Option String} {id : NodeId} (h : log.Bounded)
    (hlog : recordTrace log a i place before id = .ok log') : log'.Bounded := by
  cases before with
  | none =>
      cases hlog
      exact h
  | some text =>
      obtain ⟨after, -, hlog⟩ := bind_eq_ok.mp hlog
      cases hlog
      exact h.record _

theorem bounded_apply (h : p.trace.Bounded) (f : Frame) (below : List Frame) (i : RuleId) (r : Rule)
    (b : Bindings) : (p.apply f below i r b).pass.trace.Bounded := by
  have happly := p.attempts_apply f below i r b
  generalize p.apply f below i r b = s at happly ⊢
  cases happly with
  | going line before a log children _ _ _ hlog => exact bounded_recordTrace h hlog
  | stopped _ q _ htrace =>
      rcases htrace with htrace | ⟨a, place, before, hlog⟩
      · show q.trace.Bounded
        rw [htrace]
        exact h
      · exact bounded_recordTrace h hlog

theorem bounded_step (h : p.trace.Bounded) : p.step.pass.trace.Bounded := by
  by_cases happlies : ∃ f below i r b, p.Applies f below i r b
  · obtain ⟨f, below, i, r, b, hp⟩ := happlies
    rw [step_eq_apply hp]
    exact bounded_apply h f below i r b
  · simp only [not_exists] at happlies
    rw [(quiet_step happlies).trace]
    exact h

end Pass

namespace Engine

variable {e : Engine} {a : Arena} {root : NodeId}

theorem bounded_processWithin (h : e.trace.Bounded) (steps : Nat) (a : Arena) :
    (e.processWithin steps a).engine.trace.Bounded := by
  obtain ⟨p, result, hp, heq⟩ := processWithin_keeps (P := fun p => p.trace.Bounded)
    (fun _ => Pass.bounded_step) e steps a fun _ _ => h
  rw [heq]
  exact hp

/-- Engines as they come about in use: rules are registered, passes are made, and the trace log is
switched on and off, read and cleared. -/
inductive InUse : Engine → Prop
  | new (readerSigil : Char) (config : Config) : InUse (.new readerSigil config)
  | addRule {e e' : Engine} {spec : RuleSpec} {id : RuleId} (h : InUse e)
    (hadd : e.addRule spec = .ok (id, e')) : InUse e'
  | process {e : Engine} (h : InUse e) (steps : Nat) (a : Arena) :
    InUse (e.processWithin steps a).engine
  | setDebugTrace {e : Engine} (h : InUse e) (enabled : Bool) : InUse (e.setDebugTrace enabled)
  | takeTrace {e : Engine} (h : InUse e) : InUse e.takeTrace.2
  | clearTrace {e : Engine} (h : InUse e) : InUse e.clearTrace

/-- Registering rules is all that counts for the rules of an engine. -/
theorem InUse.compiled (h : e.InUse) : ∀ side ∈ e.rules.sides, Compiled side.1 side.2 := by
  induction h with
  | new readerSigil config => exact (Reached.new readerSigil config).compiled
  | addRule _ hadd ih => exact forall_sides_addRule ih hadd fun _ _ => SnippetReader.compiled_of_rule
  | process _ steps a ih =>
      rw [sides_processWithin]
      exact ih
  | setDebugTrace _ _ ih => exact ih
  | takeTrace _ ih => exact ih
  | clearTrace _ ih => exact ih

theorem InUse.bounded (h : e.InUse) : e.trace.Bounded := by
  induction h with
  | new readerSigil config => exact Nat.zero_le _
  | addRule _ hadd ih =>
      obtain ⟨sides, -, hadd⟩ := bind_eq_ok.mp hadd
      cases hadd
      exact ih
  | process _ steps a ih => exact bounded_processWithin ih steps a
  | setDebugTrace _ _ ih => exact ih
  | takeTrace _ _ => exact Nat.zero_le _
  | clearTrace _ _ => exact Nat.zero_le _

/-- Each replacement is made in a state of the pass. -/
theorem exists_passState_of_replacement {steps : Nat} {r : Replacement}
    (hr : r ∈ e.replacements steps a) :
    ∃ root p, a.root = some root ∧ e.PassState a root p ∧ p.replacement? = some r := by
  unfold replacements at hr
  split at hr
  · cases hr
  · rename_i root hroot
    split at hr
    · cases hr
    · split at hr
      · rename_i first hbegin
        obtain ⟨m, p, hrun, hp⟩ := Pass.exists_of_mem_replacements hr
        exact ⟨root, p, hroot, ⟨first, m, hbegin, hrun⟩, hp⟩
      · cases hr

theorem replacements_of_noRules (hrules : e.rules.size = 0) (steps : Nat) (a : Arena) :
    e.replacements steps a = [] := by
  unfold replacements
  cases a.root <;> simp [hrules]

theorem replacements_eq {l : Placement} (hl : a.Holds l) (hroot : a.root = some l.root)
    (hrules : e.rules.size ≠ 0) (steps : Nat) :
    e.replacements steps a = (e.entered a l).replacements steps := by
  simp only [replacements, hroot, hrules, if_false, beginPass]
  rw [Pass.enter_eq hl]
  rfl

/-- The accounts of a pass over a unit, cut off after so many steps or ended by itself. -/
structure Accounts (e : Engine) (a : Arena) (rs : List Replacement) (r : Processed) : Prop where
  /-- Nothing but the replacements changes the unit. -/
  leads : Replacement.Lead a rs r.arena
  total : r.engine.rules.totalHits = e.rules.totalHits + rs.length
  hits : ∀ i, r.engine.rules.hitsOf i = e.rules.hitsOf i + (rs.map Replacement.rule).count i
  counted : ∀ s, r.result = .ok s → s.rewrites = rs.length
  /-- An enabled log tells of every replacement, and keeps the last entries. -/
  logged : e.trace.enabled = true →
    ∃ entries, List.Forall₂ Replacement.Records rs entries ∧
      r.engine.trace.entries = (e.trace.entries ++ entries).rtake e.trace.capacity
  unlogged : e.trace.enabled = false → r.engine.trace = e.trace

theorem Accounts.of_books {p : Pass} {rs : List Replacement} {s : Step} (he : e.InUse)
    (hrules : p.rules = e.rules) (htrace : p.trace = e.trace) (hsummary : p.summary.rewrites = 0)
    (h : p.Books s.pass rs) : e.Accounts p.arena rs (e.outcome s) := by
  have hengine : (e.outcome s).engine.rules = s.pass.rules ∧
      (e.outcome s).engine.trace = s.pass.trace ∧ (e.outcome s).arena = s.pass.arena := by
    cases s <;> exact ⟨rfl, rfl, rfl⟩
  obtain ⟨hafter, hlog, harena⟩ := hengine
  have hbooked : (e.outcome s).engine.rules = e.rules.booked rs := by
    rw [hafter, h.rules, hrules]
  have hregistered : ∀ r ∈ rs, r.rule < e.rules.size := hrules ▸ h.registered
  exact
    { leads := harena ▸ h.leads
      total := by rw [hbooked, RuleStore.totalHits_booked hregistered]
      hits := by
        intro i
        rw [hbooked, RuleStore.hitsOf_booked hregistered]
      counted := by
        intro counts hok
        have hrewrites := h.rewrites
        cases s with
        | going q => cases hok
        | stopped x q => cases hok
        | finished q =>
            cases hok
            rw [hsummary, Nat.zero_add] at hrewrites
            exact hrewrites
      logged := by
        intro henabled
        obtain ⟨entries, hentries, hextend⟩ := h.logged (htrace ▸ henabled)
        refine ⟨entries, hentries, ?_⟩
        rw [hlog, hextend, htrace]
        exact TraceLog.entries_extend he.bounded henabled entries
      unlogged := by
        intro hdisabled
        rw [hlog, h.unlogged (htrace ▸ hdisabled), htrace] }

/-- A pass over a unit is a run whose accounts agree. Without rules it is one without steps. -/
theorem exists_books (he : e.InUse) (h : a.TreeShaped root) (steps : Nat) :
    ∃ (p : Pass) (s : Step), p.rules = e.rules ∧ p.trace = e.trace ∧ p.summary.rewrites = 0 ∧
      p.arena = a ∧ p.Books s.pass (e.replacements steps a) ∧
      e.processWithin steps a = e.outcome s := by
  obtain ⟨l, rfl, ha⟩ := h.exists_owns
  by_cases hrules : e.rules.size = 0
  · let p : Pass := ⟨e.config, a, e.rules, e.trace, .zero, []⟩
    refine ⟨p, .finished p, rfl, rfl, rfl, rfl, ?_, processWithin_of_noRules hrules steps a⟩
    rw [replacements_of_noRules hrules]
    exact Pass.Quiet.books ⟨rfl, rfl, rfl, rfl, rfl⟩
  · refine ⟨e.entered a l, _, rfl, rfl, rfl, rfl, ?_,
      processWithin_eq ha.holds_all h.root_eq hrules steps⟩
    rw [replacements_eq ha.holds_all h.root_eq hrules]
    exact (coherent_entered (e := e) ha h.root_eq).books_run he.compiled steps

/-- The accounts of a pass agree. Whatever an engine was used for before, however long the pass
lasts and however it ends: the replacements that it made in the unit are counted by the counters of
their rules and, if the pass ends well, by its summary; an enabled trace log is the last entries of
what it was before and of one entry for each replacement, with its rule and its place; a disabled
one stays as it was. -/
theorem processWithin_accounts (he : e.InUse) (h : a.TreeShaped root) (steps : Nat) :
    e.Accounts a (e.replacements steps a) (e.processWithin steps a) := by
  obtain ⟨p, s, hrules, htrace, hsummary, rfl, hbooks, heq⟩ := exists_books he h steps
  rw [heq]
  exact Accounts.of_books he hrules htrace hsummary hbooks

theorem Reached.inUse (h : e.Reached) : e.InUse := by
  induction h with
  | new readerSigil config => exact .new readerSigil config
  | addRule _ hadd ih => exact .addRule ih hadd
  | process _ steps a ih => exact .process ih steps a

/-- An engine whose trace log holds one entry, after a pass that has filled it. -/
def traced : Engine :=
  (((Engine.new defaultSigil { debugTrace := true, traceCapacity := 1 }).register
    [⟨"$x + 0", "$x"⟩]).2.processWithin 9 (.ofTree "before" sumTree)).engine

/-- In the next pass the rule is applied a second time, and the entry of the first leaves the log. -/
theorem traced_accounts :
    ∃ root r entry, traced.InUse ∧ (Arena.ofTree "unit" sumTree).TreeShaped root ∧
      traced.replacements 9 (.ofTree "unit" sumTree) = [r] ∧ r.Records entry ∧
      (traced.processWithin 9 (.ofTree "unit" sumTree)).engine.rules.totalHits = 2 ∧
      (traced.processWithin 9 (.ofTree "unit" sumTree)).engine.trace.entries = [entry] := by
  obtain ⟨root, hshape, -⟩ := Arena.ofTree_treeShaped "unit" (t := sumTree) (by decide)
  have hused : traced.InUse := by
    rw [traced]
    exact (((Reached.new _ _).register [⟨"$x + 0", "$x"⟩]).process 9 _).inUse
  have haccounts := processWithin_accounts hused hshape 9
  have hresult : (traced.processWithin 9 (.ofTree "unit" sumTree)).result = .ok ⟨1, 4⟩ := by
    decide +kernel
  have hbefore : traced.rules.totalHits = 1 ∧ traced.trace.enabled = true ∧
      traced.trace.capacity = 1 := by
    decide +kernel
  have hlength := haccounts.counted _ hresult
  obtain ⟨r, hr⟩ := List.length_eq_one_iff.mp hlength.symm
  obtain ⟨entries, hentries, hlog⟩ := haccounts.logged hbefore.2.1
  rw [hr] at hentries
  cases hentries with
  | cons hrecords hrest =>
      cases hrest
      refine ⟨root, r, _, hused, hshape, hr, hrecords, ?_, ?_⟩
      · rw [haccounts.total, hbefore.1, hr]
        rfl
      · rw [hlog, hbefore.2.2, List.rtake_concat_succ, List.rtake_zero, List.nil_append]

end Engine

/-! ### Compilers and the console -/

/-- The pipeline of a new compiler rewrites the unit and does nothing else. -/
theorem Pipeline.run_installRewrite (e : Engine) (a : Arena) :
    Pipeline.empty.installRewrite.2.run e a =
      (((e.process a).result.map fun _ => (e.process a).arena).mapError fun x =>
        .stage rewriteStageName (.rewrite x), (e.process a).engine) := by
  simp only [Pipeline.run, Pipeline.installRewrite, Pipeline.push, Pipeline.empty, List.nil_append,
    Pipeline.runStages, rewriteUnit]
  cases (e.process a).result <;> rfl

namespace Compiler

variable {c : Compiler} {source origin : String} {a : Arena}

/-- A compiler that has no other stage than the one that rewrites. -/
def Plain (c : Compiler) : Prop :=
  c.pipeline = Pipeline.empty.installRewrite.2

theorem compileUnit_of_parse (hplain : c.Plain) (h : c.parse source origin = .ok a) :
    c.compileUnit source origin =
      (((c.engine.process a).result.map fun _ => (c.engine.process a).arena).mapError fun x =>
        .stage rewriteStageName (.rewrite x), { c with engine := (c.engine.process a).engine }) := by
  simp only [compileUnit, h]
  rw [hplain, Pipeline.run_installRewrite]

theorem exists_treeShaped_of_parse (h : c.parse source origin = .ok a) :
    ∃ root, a.TreeShaped root := by
  rw [parse, parseUnit_eq] at h
  split at h
  · rename_i t hread
    cases h
    obtain ⟨root, hshape, -⟩ := Arena.ofTree_treeShaped origin (readProgram_isPart hread).hasShape
    exact ⟨root, hshape⟩
  · cases h

end Compiler

/-- The console takes its count from the counters of the rules, and it is the number of replacements
in the unit. -/
theorem Console.execute_rewrites {c c' : Console} {code : String} {x : Execution}
    (hengine : c.engine.InUse) (hplain : c.compiler.Plain) (h : c.execute code = (.ok x, c')) :
    ∃ a, c.compiler.parse code consoleOrigin = .ok a ∧
      x.rewrites = (c.engine.replacements defaultSteps a).length := by
  cases hparse : c.compiler.parse code consoleOrigin with
  | error error => simp [execute, Compiler.compileUnit, hparse] at h
  | ok a =>
      refine ⟨a, rfl, ?_⟩
      obtain ⟨root, hshape⟩ := Compiler.exists_treeShaped_of_parse hparse
      obtain ⟨p, s, hrules, htrace, hsummary, rfl, hbooks, heq⟩ :=
        Engine.exists_books hengine hshape defaultSteps
      have htotal := (Engine.Accounts.of_books hengine hrules htrace hsummary hbooks).total
      rw [← heq] at htotal
      simp only [execute, Compiler.compileUnit_of_parse hplain hparse] at h
      split at h
      · cases h
      · split at h
        · cases h
        · cases h
          show (c.engine.process p.arena).engine.rules.totalHits - c.engine.rules.totalHits = _
          rw [Engine.process, htotal]
          exact Nat.add_sub_cancel_left _ _

end SnippetRewrite
