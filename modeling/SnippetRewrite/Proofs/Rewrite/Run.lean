import SnippetRewrite.Proofs.Rewrite.Step
import SnippetRewrite.Rewrite.Engine

/-!
Runs of a pass, and what it means that a run does what a computation with a result says. Results of
computations are cut off like runs: where the computation gives up, the run takes at least as many
steps as the computation went deep.
-/

namespace SnippetRewrite

namespace Pass

variable {p q : Pass} {k m n bound : Nat} {e : RewriteError}

theorem run_add (h : p.run k = .going q) (m : Nat) : p.run (k + m) = q.run m := by
  induction k generalizing p with
  | zero =>
      cases h
      rw [Nat.zero_add]
  | succ k ih =>
      rw [Nat.add_right_comm]
      simp only [run] at h ⊢
      split at h
      · exact ih h
      · rename_i hstep
        exact (hstep q h).elim

theorem run_one (h : p.step = .going q) : p.run 1 = .going q := by
  simp [run, h]

/-- What each step keeps, a run keeps. -/
theorem run_keeps {P : Pass → Prop} (hsteps : ∀ p q, P p → p.step = .going q → P q) (hp : P p)
    (h : p.run k = .going q) : P q := by
  induction k generalizing p with
  | zero =>
      cases h
      exact hp
  | succ k ih =>
      rw [run] at h
      split at h
      · rename_i x hstep
        exact ih (hsteps p x hp hstep) h
      · rename_i hstep
        exact (hstep q h).elim

/-- Once a run has come to an end, more steps change nothing. -/
theorem run_of_le (h : ∀ q, p.run n ≠ .going q) (hle : n ≤ m) : p.run m = p.run n := by
  induction n generalizing p m with
  | zero => exact (h p rfl).elim
  | succ n ih =>
      obtain ⟨m, rfl⟩ := Nat.exists_eq_add_of_le' (Nat.le_trans (Nat.succ_pos n) hle)
      simp only [run] at h ⊢
      cases hstep : p.step with
      | going q =>
          simp only [hstep] at h ⊢
          exact ih h (Nat.le_of_succ_le_succ hle)
      | finished q => rfl
      | stopped e q => rfl

/-- However long they are, runs that have come to an end have come to the same. -/
theorem run_eq_of_ended (hm : ∀ q, p.run m ≠ .going q) (hn : ∀ q, p.run n ≠ .going q) :
    p.run m = p.run n := by
  rw [← run_of_le hm (Nat.le_max_left m n), run_of_le hn (Nat.le_max_right m n)]

theorem going_of_le (h : p.run n = .going q) (hle : m ≤ n) : ∃ q', p.run m = .going q' := by
  cases hm : p.run m with
  | going q' => exact ⟨q', rfl⟩
  | finished q' =>
      rw [run_of_le (by simp [hm]) hle, hm] at h
      cases h
  | stopped e q' =>
      rw [run_of_le (by simp [hm]) hle, hm] at h
      cases h

/-- A run that has left the last position finishes with the next step. -/
theorem run_of_left (h : p.run k = .going q) (hstack : q.stack = []) (hlt : k < n) :
    p.run n = .finished q := by
  have hlast : q.run 1 = .finished q := by simp [run, step, hstack]
  have hend : p.run (k + 1) = .finished q := by rw [run_add h, hlast]
  rw [run_of_le (by simp [hend]) hlt, hend]

/-- A run that stops does so in one of its states. -/
theorem exists_step_of_stopped {n : Nat} (h : p.run n = .stopped e q) :
    ∃ m p', p.run m = .going p' ∧ p'.step = .stopped e q := by
  induction n generalizing p with
  | zero => cases h
  | succ n ih =>
      rw [run] at h
      split at h
      · rename_i p₁ hstep
        obtain ⟨m, p', hrun, hstop⟩ := ih h
        exact ⟨m + 1, p', by rw [run, hstep]; exact hrun, hstop⟩
      · exact ⟨0, p, rfl, h⟩

/-! ### Counting steps -/

/-- Each step is counted once: a node is entered and left, a rewrite is a step of its own, and the
positions on the stack have not been left yet. -/
theorem Moves.measure (h : p.Moves q) :
    2 * q.summary.nodesVisited + q.summary.rewrites + p.stack.length =
      2 * p.summary.nodesVisited + p.summary.rewrites + q.stack.length + 1 := by
  cases h with
  | enter f g h below hstack hnext =>
      subst hnext
      simp only [hstack, List.length_cons]
      omega
  | leave f hstack hnext =>
      have hsummary : q.summary = p.summary := by rw [hnext]
      rw [hsummary, hstack, List.length_cons]
      omega
  | rewrite f g below hstack hnext hsummary =>
      simp only [hstack, hnext, hsummary, List.length_cons]
      omega

theorem run_measure (h : p.run k = .going q) :
    2 * q.summary.nodesVisited + q.summary.rewrites + p.stack.length =
      2 * p.summary.nodesVisited + p.summary.rewrites + q.stack.length + k := by
  induction k generalizing p with
  | zero =>
      cases h
      omega
  | succ k ih =>
      rw [run] at h
      split at h
      · rename_i x hstep
        have hmoves := (moves_of_step hstep).measure
        have hrest := ih h
        omega
      · rename_i hstep
        exact (hstep q h).elim

/-- The passes differ in nothing but nodes visited and the stack. -/
structure Quiet (p q : Pass) : Prop where
  config : q.config = p.config
  arena : q.arena = p.arena
  rules : q.rules = p.rules
  trace : q.trace = p.trace
  rewrites : q.summary.rewrites = p.summary.rewrites

theorem Moves.quiet (h : p.Moves q) :
    p.Quiet q ∨ q.summary.rewrites = p.summary.rewrites + 1 := by
  cases h with
  | enter f g h below hstack hnext =>
      subst hnext
      exact Or.inl ⟨rfl, rfl, rfl, rfl, rfl⟩
  | leave f hstack hnext =>
      left
      rw [hnext]
      exact ⟨rfl, rfl, rfl, rfl, rfl⟩
  | rewrite f g below hstack hnext hsummary => exact Or.inr (by rw [hsummary])

/-- A run without rewrites is quiet. -/
theorem run_quiet (h : p.run k = .going q) :
    p.Quiet q ∨ p.summary.rewrites < q.summary.rewrites := by
  induction k generalizing p with
  | zero =>
      cases h
      exact Or.inl ⟨rfl, rfl, rfl, rfl, rfl⟩
  | succ k ih =>
      rw [run] at h
      split at h
      · rename_i x hstep
        rcases (moves_of_step hstep).quiet with hx | hx
        · -- no rewrite yet: the rest of the run decides
          rcases ih h with hq | hq
          · left
            exact ⟨hq.config.trans hx.config, hq.arena.trans hx.arena, hq.rules.trans hx.rules,
              hq.trace.trans hx.trace, hq.rewrites.trans hx.rewrites⟩
          · exact Or.inr (hx.rewrites ▸ hq)
        · right
          rcases ih h with hq | hq
          · have := hq.rewrites
            omega
          · omega
      · rename_i hstep
        exact (hstep q h).elim

theorem quiet_of_run (h : p.run k = .going q)
    (hrewrites : q.summary.rewrites = p.summary.rewrites) : p.Quiet q :=
  (run_quiet h).resolve_right fun hmore => by omega

/-! ### Runs and computations -/

/-- A pass fails as a computation does: it stops with the same error, or takes more steps than the
computation went deep. -/
structure Fails (p : Pass) (bound : Nat) (e : RewriteError) : Prop where
  going : e = .unfinished → ∃ q, p.run bound = .going q
  stopped : e ≠ .unfinished → ∃ k q, p.run k = .stopped e q

/-- A pass does what a computation says: it comes to a state that fits the result, or fails in the
same way. -/
def Simulates {α : Type} (p : Pass) (bound : Nat) (Q : α → Pass → Prop) :
    Except RewriteError α → Prop
  | .ok v => ∃ k q, p.run k = .going q ∧ Q v q
  | .error e => p.Fails bound e

theorem Fails.of_stopped (h : p.step = .stopped e q) (hne : e ≠ .unfinished) : p.Fails bound e where
  going heq := (hne heq).elim
  stopped _ := ⟨1, q, by simp [run, h]⟩

theorem Fails.le (h : p.Fails n e) (hle : m ≤ n) : p.Fails m e where
  going he := by
    obtain ⟨q, hq⟩ := h.going he
    exact going_of_le hq hle
  stopped := h.stopped

theorem Fails.after (h : q.Fails n e) (hk : p.run k = .going q) : p.Fails (k + n) e where
  going he := by
    obtain ⟨x, hx⟩ := h.going he
    exact ⟨x, by rw [run_add hk, hx]⟩
  stopped he := by
    obtain ⟨j, x, hx⟩ := h.stopped he
    exact ⟨k + j, x, by rw [run_add hk, hx]⟩

variable {α β : Type} {Q : α → Pass → Prop} {R : β → Pass → Prop} {r : Except RewriteError α}

theorem Simulates.imp {Q' : α → Pass → Prop} (h : p.Simulates bound Q r)
    (himp : ∀ v q, Q v q → Q' v q) : p.Simulates bound Q' r := by
  cases r with
  | error e => exact h
  | ok v =>
      obtain ⟨k, q, hk, hq⟩ := h
      exact ⟨k, q, hk, himp v q hq⟩

/-- A step before a computation that is cut off lets it be cut off one later. -/
theorem Simulates.step (h : q.Simulates bound Q r) (hstep : p.step = .going q) :
    p.Simulates (bound + 1) Q r := by
  cases r with
  | error e =>
      rw [Nat.add_comm]
      exact Fails.after h (run_one hstep)
  | ok v =>
      obtain ⟨k, x, hk, hx⟩ := h
      exact ⟨1 + k, x, by rw [run_add (run_one hstep), hk], hx⟩

theorem Simulates.bind {g : α → Except RewriteError β} (h : p.Simulates bound Q r)
    (hg : ∀ v q, Q v q → q.Simulates bound R (g v)) : p.Simulates bound R (r >>= g) := by
  cases r with
  | error e => exact h
  | ok v =>
      obtain ⟨k, q, hk, hq⟩ := h
      have hrest := hg v q hq
      change p.Simulates bound R (g v)
      cases hv : g v with
      | error e =>
          rw [hv] at hrest
          exact (Fails.after hrest hk).le (Nat.le_add_left bound k)
      | ok w =>
          rw [hv] at hrest
          obtain ⟨j, x, hj, hx⟩ := hrest
          exact ⟨k + j, x, by rw [run_add hk, hj], hx⟩

/-- A run that is finished has come through a state that fits the result of the computation. -/
theorem Simulates.of_finished (h : p.Simulates bound Q r) (hend : p.run bound = .finished q) :
    ∃ v k x, r = .ok v ∧ k < bound ∧ p.run k = .going x ∧ Q v x := by
  cases r with
  | error e =>
      by_cases he : e = .unfinished
      · obtain ⟨x, hx⟩ := h.going he
        cases hend.symm.trans hx
      · obtain ⟨k, x, hk⟩ := h.stopped he
        have hsame : p.run k = p.run bound := run_eq_of_ended (by simp [hk]) (by simp [hend])
        cases hk.symm.trans (hsame.trans hend)
  | ok v =>
      obtain ⟨k, x, hk, hx⟩ := h
      have hlt : k < bound := by
        by_contra hge
        obtain ⟨x', hx'⟩ := going_of_le hk (Nat.le_of_not_lt hge)
        cases hend.symm.trans hx'
      exact ⟨v, k, x, rfl, hlt, hk, hx⟩

end Pass

namespace Engine

open Placement

/-- A pass that has entered the root of a unit and done nothing else. -/
def entered (e : Engine) (a : Arena) (l : Placement) : Pass :=
  ⟨e.config, a, e.rules, e.trace, ⟨0, 1⟩, [⟨l.root, childIds l.slots, 0, 0⟩]⟩

def outcome (e : Engine) : Step → Processed
  | .finished p => e.finish (.ok p.summary) p
  | .stopped error p => e.finish (.error error) p
  | .going p => e.finish (.error .unfinished) p

/-- Without rules a pass leaves everything as it is. -/
theorem processWithin_of_noRules {e : Engine} (hrules : e.rules.size = 0) (steps : Nat)
    (a : Arena) : e.processWithin steps a = ⟨.ok .zero, e, a⟩ := by
  unfold processWithin
  cases a.root <;> simp [hrules]

/-- A pass over a unit whose tree is held runs from where the root has been entered. -/
theorem processWithin_eq {e : Engine} {a : Arena} {l : Placement} (hl : a.Holds l)
    (hroot : a.root = some l.root) (hrules : e.rules.size ≠ 0) (steps : Nat) :
    e.processWithin steps a = e.outcome ((e.entered a l).run steps) := by
  simp only [processWithin, hroot, hrules, if_false, beginPass]
  rw [Pass.enter_eq hl]
  rfl

theorem processWithin_of_le {e : Engine} {a : Arena} {l : Placement} (hl : a.Holds l)
    (hroot : a.root = some l.root) (hrules : e.rules.size ≠ 0) {steps more : Nat}
    (hended : (e.processWithin steps a).result ≠ .error .unfinished) (hle : steps ≤ more) :
    e.processWithin more a = e.processWithin steps a := by
  rw [processWithin_eq hl hroot hrules] at hended ⊢
  rw [processWithin_eq hl hroot hrules, Pass.run_of_le ?_ hle]
  intro q hq
  rw [hq] at hended
  exact hended rfl

/-! ### A unit and an engine -/

def sumTree : Tree :=
  .list .stmtList
    [.fixed (.binary .add) [some (.literal (.int 1) 1), some (.literal (.int 0) 1)] 1] 1

def dropZero : Engine :=
  ((Engine.new defaultSigil {}).register [⟨"$x + 0", "$x"⟩]).2

end Engine

end SnippetRewrite
