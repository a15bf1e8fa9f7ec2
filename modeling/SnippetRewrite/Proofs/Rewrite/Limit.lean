import SnippetRewrite.Proofs.Rewrite.Applications

/-!
The limit on applications at one position. No state of a pass exceeds it, and a pass that comes to
its end under a limit takes the same steps under any larger one: the limit is only looked at where a
pass stops because of it.
-/

namespace SnippetRewrite

open Placement

namespace Pass

variable {p q : Pass} {limit : Nat}

/-- What a step that goes on does to the stack. -/
inductive Restacks (p q : Pass) : Prop
  | enter (f : Frame) (below : List Frame) (child : NodeId) (pending children : List NodeId)
      (hstack : p.stack = f :: below) (hpending : f.pending = child :: pending)
      (hnext : q.stack = ⟨child, children, 0, f.innerGrowth⟩ :: { f with pending } :: below)
  | leave (f : Frame) (hstack : p.stack = f :: q.stack) (hpending : f.pending = [])
  | rewrite (f : Frame) (below : List Frame) (children : List NodeId) (hstack : p.stack = f :: below)
      (hpending : f.pending = []) (hlimit : f.applications ≠ p.config.maxRewritesPerNode)
      (hnext : q.stack =
        { f with applications := f.applications + 1, pending := children } :: below)

theorem restacks_of_step (h : p.step = .going q) : q.config = p.config ∧ p.Restacks q := by
  cases takes_of_step h with
  | enter f below child pending children hstack hpending =>
      exact ⟨rfl, .enter f below child pending children hstack hpending rfl⟩
  | leave f below hstack hpending => exact ⟨rfl, .leave f hstack hpending⟩
  | apply f below i r b hstack hpending _ hlimit happly =>
      cases happly with
      | going line before a log children =>
          exact ⟨rfl, .rewrite f below children hstack hpending hlimit rfl⟩

/-! ### No position exceeds the limit -/

/-- No position on the stack was rewritten more often than the settings admit. -/
def WithinLimit (p : Pass) : Prop :=
  ∀ f ∈ p.stack, f.applications ≤ p.config.maxRewritesPerNode

theorem WithinLimit.step (hp : p.WithinLimit) (h : p.step = .going q) : q.WithinLimit := by
  obtain ⟨hconfig, hmoves⟩ := restacks_of_step h
  unfold WithinLimit at hp ⊢
  rw [hconfig]
  cases hmoves with
  | enter f below child pending children hstack _ hnext =>
      rw [hstack] at hp
      rw [hnext]
      simp only [List.mem_cons, forall_eq_or_imp] at hp ⊢
      exact ⟨Nat.zero_le _, hp⟩
  | leave f hstack _ =>
      rw [hstack] at hp
      exact fun g hg => hp g (List.mem_cons_of_mem _ hg)
  | rewrite f below children hstack _ hlimit hnext =>
      rw [hstack] at hp
      rw [hnext]
      simp only [List.mem_cons, forall_eq_or_imp] at hp ⊢
      exact ⟨Nat.lt_of_le_of_ne hp.1 hlimit, hp.2⟩

theorem WithinLimit.run (hp : p.WithinLimit) {steps : Nat} (h : p.run steps = .going q) :
    q.WithinLimit ∧ q.config = p.config :=
  run_keeps (P := fun x => x.WithinLimit ∧ x.config = p.config)
    (fun _ _ hx hstep => ⟨hx.1.step hstep, (restacks_of_step hstep).1.trans hx.2⟩) ⟨hp, rfl⟩ h

/-! ### Larger limits -/

def withLimit (limit : Nat) (p : Pass) : Pass :=
  { p with config := { p.config with maxRewritesPerNode := limit } }

end Pass

def Step.withLimit (limit : Nat) : Step → Step
  | .going p => .going (p.withLimit limit)
  | .finished p => .finished (p.withLimit limit)
  | .stopped e p => .stopped e (p.withLimit limit)

namespace Pass

variable {p q : Pass} {f : Frame} {below : List Frame} {limit : Nat}

theorem enter_withLimit (limit : Nat) (p : Pass) (id : NodeId) (growth : Nat) (stack : List Frame) :
    (p.withLimit limit).enter id growth stack = (p.enter id growth stack).withLimit limit := by
  simp only [enter, withLimit]
  split <;> rfl

theorem descend_withLimit (limit : Nat) (p : Pass) (child : NodeId) (growth : Nat)
    (stack : List Frame) :
    (p.withLimit limit).descend child growth stack =
      (p.descend child growth stack).withLimit limit := by
  have hdepth : (p.withLimit limit).config.maxDepth = p.config.maxDepth := rfl
  have harena : (p.withLimit limit).arena = p.arena := rfl
  simp only [descend, enter_withLimit, hdepth, harena]
  by_cases hdeep : p.config.maxDepth ≤ growth
  · rw [if_pos hdeep, if_pos hdeep]
    split <;> rfl
  · rw [if_neg hdeep, if_neg hdeep]

theorem apply_withLimit (limit : Nat) (p : Pass) (f : Frame) (below : List Frame) (i : RuleId)
    (r : Rule) (b : Bindings) :
    (p.withLimit limit).apply f below i r b = (p.apply f below i r b).withLimit limit := by
  obtain ⟨config, arena, rules, trace, summary, stack⟩ := p
  unfold apply
  dsimp only [withLimit]
  cases arena.location f.id with
  | error x => rfl
  | ok location =>
      dsimp only
      split
      · rfl
      · split
        · rfl
        · split
          · rfl
          · split <;> rfl

/-- A step that does not stop the pass is the same under a larger limit. -/
theorem step_withLimit (hp : p.WithinLimit) (hle : p.config.maxRewritesPerNode ≤ limit)
    (hgoes : ∀ e q, p.step ≠ .stopped e q) : (p.withLimit limit).step = p.step.withLimit limit := by
  have hstack : (p.withLimit limit).stack = p.stack := rfl
  have hfirst : (p.withLimit limit).rules.firstMatch (matcher (p.withLimit limit).config)
      (p.withLimit limit).arena = p.rules.firstMatch (matcher p.config) p.arena := rfl
  have hlimit : (p.withLimit limit).config.maxRewritesPerNode = limit := rfl
  unfold step at hgoes ⊢
  rw [hstack]
  cases hs : p.stack with
  | nil => rfl
  | cons f below =>
      rw [hs] at hgoes
      simp only at hgoes ⊢
      cases hpending : f.pending with
      | cons child pending => exact descend_withLimit limit p child _ _
      | nil =>
          rw [hpending] at hgoes
          simp only [hfirst] at hgoes ⊢
          split
          · rfl
          · rfl
          · rename_i i r b hmatch
            rw [hmatch] at hgoes
            simp only at hgoes
            by_cases happs : f.applications = p.config.maxRewritesPerNode
            · -- the pass would stop here
              rw [if_pos happs] at hgoes
              split at hgoes
              · exact (hgoes _ _ rfl).elim
              · exact (hgoes _ _ rfl).elim
            · have hwithin : f.applications ≤ p.config.maxRewritesPerNode :=
                hp f (hs ▸ List.mem_cons_self)
              rw [if_neg happs, hlimit, if_neg (by omega)]
              exact apply_withLimit limit p f below i r b

/-- A run that does not stop the pass is the same under a larger limit. -/
theorem run_withLimit (hp : p.WithinLimit) (hle : p.config.maxRewritesPerNode ≤ limit) {steps : Nat}
    (hgoes : ∀ e q, p.run steps ≠ .stopped e q) :
    (p.withLimit limit).run steps = (p.run steps).withLimit limit := by
  induction steps generalizing p with
  | zero => rfl
  | succ steps ih =>
      rw [run] at hgoes
      have hstep : (p.withLimit limit).step = p.step.withLimit limit := by
        refine step_withLimit hp hle fun e q heq => ?_
        rw [heq] at hgoes
        exact hgoes e q rfl
      rw [run, run, hstep]
      cases hq : p.step with
      | going q =>
          rw [hq] at hgoes
          refine ih (hp.step hq) ?_ hgoes
          rw [(restacks_of_step hq).1]
          exact hle
      | finished q => rfl
      | stopped e q => rfl

end Pass

namespace Engine

variable {e : Engine} {a : Arena} {l : Placement}

def withLimit (limit : Nat) (e : Engine) : Engine :=
  { e with config := { e.config with maxRewritesPerNode := limit } }

theorem withinLimit_entered (e : Engine) (a : Arena) (l : Placement) :
    (e.entered a l).WithinLimit := by
  intro f hf
  rw [List.mem_singleton.mp hf]
  exact Nat.zero_le _

/-- A pass that comes to its end under a limit is the same under a larger one, in every state. -/
theorem run_entered_of_limit {limit steps : Nat} (hle : limit ≤ e.config.maxRewritesPerNode)
    {x : Pass} (hend : ((e.withLimit limit).entered a l).run steps = .finished x) (k : Nat) :
    (e.entered a l).run k =
      (((e.withLimit limit).entered a l).run k).withLimit e.config.maxRewritesPerNode := by
  refine Pass.run_withLimit (withinLimit_entered (e.withLimit limit) a l) hle fun error q hstop => ?_
  -- what stops the pass once stops it for good, and so does the end
  have hsame := Pass.run_eq_of_ended (p := (e.withLimit limit).entered a l) (m := k) (n := steps)
    (by simp [hstop]) (by simp [hend])
  cases hstop.symm.trans (hsame.trans hend)

/-- If a pass comes to its end under a limit, no position is rewritten more often under a larger
one. -/
theorem applications_le_of_limit {limit steps : Nat}
    (hle : limit ≤ e.config.maxRewritesPerNode) (ha : a.Holds l) {x : Pass}
    (hend : ((e.withLimit limit).entered a l).run steps = .finished x) {p : Pass}
    (hp : e.PassState a l.root p) : ∀ f ∈ p.stack, f.applications ≤ limit := by
  obtain ⟨k, hrun⟩ := (passState_iff ha).mp hp
  rw [run_entered_of_limit hle hend k] at hrun
  cases hq : ((e.withLimit limit).entered a l).run k with
  | going q =>
      rw [hq] at hrun
      cases hrun
      obtain ⟨hwithin, hconfig⟩ := (withinLimit_entered (e.withLimit limit) a l).run hq
      unfold Pass.WithinLimit at hwithin
      rw [hconfig] at hwithin
      exact hwithin
  | finished q =>
      rw [hq] at hrun
      cases hrun
  | stopped error q =>
      rw [hq] at hrun
      cases hrun

end Engine

end SnippetRewrite
