import Mathlib.Data.List.Chain
import SnippetRewrite.Proofs.Rewrite.Fixpoint
import SnippetRewrite.Proofs.Rewrite.Limit
import SnippetRewrite.Proofs.Rewrite.LineOrder

/-!
The growth counter. A position gets its counter when it is entered, from the position around it, and
keeps it; that position may have been rewritten before, but it is not rewritten again as long as the
inner one is on the stack. So in every state of a pass, all counters on the stack are exact: each is
the number of rewritten positions that directly enclose it, one inside the other. The depth limit is
therefore only met where so many positions, each the parent of the next, have been rewritten, and
where nothing is rewritten the depth of a unit does not matter.
-/

namespace SnippetRewrite

open Placement

namespace Pass

variable {p q : Pass} {f : Frame} {below stack : List Frame} {root : NodeId}

/-- The number of innermost positions that have been rewritten, up to the first that has not. -/
def rewrittenChain (stack : List Frame) : Nat :=
  (stack.takeWhile fun f => 0 < f.applications).length

theorem rewrittenChain_cons (f : Frame) (below : List Frame) :
    rewrittenChain (f :: below) = if 0 < f.applications then rewrittenChain below + 1 else 0 := by
  by_cases h : 0 < f.applications <;> simp [rewrittenChain, h]

/-- All counters are exact. -/
def Measured (stack : List Frame) : Prop :=
  ∀ f below, f :: below <:+ stack → f.growth = rewrittenChain below

theorem measured_cons :
    Measured (f :: below) ↔ f.growth = rewrittenChain below ∧ Measured below := by
  constructor
  · intro h
    exact ⟨h f below (List.suffix_refl _),
      fun g rest hg => h g rest (hg.trans (List.suffix_cons _ _))⟩
  · rintro ⟨hf, hbelow⟩ g rest hg
    rcases List.suffix_cons_iff.mp hg with heq | hg
    · cases heq
      exact hf
    · exact hbelow g rest hg

/-- A position passes on an exact counter. -/
theorem innerGrowth_eq (h : Measured (f :: below)) : f.innerGrowth = rewrittenChain (f :: below) := by
  rw [Frame.innerGrowth, rewrittenChain_cons, (measured_cons.mp h).1]

theorem Measured.step (hp : Measured p.stack) (h : p.step = .going q) : Measured q.stack := by
  obtain ⟨-, hmoves⟩ := restacks_of_step h
  cases hmoves with
  | enter f below child pending children hstack _ hnext =>
      rw [hstack] at hp
      rw [hnext]
      obtain ⟨hgrowth, hbelow⟩ := measured_cons.mp hp
      have houter : Measured ({ f with pending } :: below) := measured_cons.mpr ⟨hgrowth, hbelow⟩
      exact measured_cons.mpr ⟨innerGrowth_eq houter, houter⟩
  | leave f hstack _ =>
      rw [hstack] at hp
      exact (measured_cons.mp hp).2
  | rewrite f below children hstack _ _ hnext =>
      rw [hstack] at hp
      rw [hnext]
      -- the counter of a position does not depend on its own rewrites
      obtain ⟨hgrowth, hbelow⟩ := measured_cons.mp hp
      exact measured_cons.mpr ⟨hgrowth, hbelow⟩

theorem Measured.run (hp : Measured p.stack) {steps : Nat} (h : p.run steps = .going q) :
    Measured q.stack :=
  run_keeps (P := fun p => Measured p.stack) (fun _ _ hp hstep => hp.step hstep) hp h

/-! ### Where the depth limit is met -/

/-- Innermost positions that have been rewritten in this visit, around a child at some place. -/
structure RewrittenAround (p : Pass) (chain : List Frame) (location : Location) : Prop where
  innermost : chain <+: p.stack
  rewritten : ∀ f ∈ chain, 0 < f.applications
  child : ∃ f below id pending, p.stack = f :: below ∧ f.pending = id :: pending ∧
    p.arena.location id = .ok location

theorem take_rewrittenChain (stack : List Frame) {n : Nat} (h : n ≤ rewrittenChain stack) :
    (stack.take n).length = n ∧ ∀ f ∈ stack.take n, 0 < f.applications := by
  have htaken : stack.take n <+: stack.takeWhile fun f => 0 < f.applications :=
    List.prefix_of_prefix_length_le (List.take_prefix _ _) (List.takeWhile_prefix _)
      (Nat.le_trans (by rw [List.length_take]; exact Nat.min_le_left _ _) h)
  refine ⟨List.length_take_of_le (Nat.le_trans h (List.takeWhile_prefix _).length_le), fun f hf => ?_⟩
  simpa using List.mem_takeWhile_imp (htaken.subset hf)

theorem depthLimit_of_stopped {location : Location} {limit : Nat}
    (h : p.step = .stopped (.depthLimit location limit) q) :
    limit = p.config.maxDepth ∧ ∃ f below child pending, p.stack = f :: below ∧
      f.pending = child :: pending ∧ p.arena.location child = .ok location ∧
        limit ≤ f.innerGrowth := by
  cases takes_of_step h with
  | tooDeep f below child pending place hstack hpending hdepth hplace =>
      exact ⟨rfl, f, below, child, pending, hstack, hpending, hplace, hdepth⟩
  | apply _ _ _ _ _ _ _ _ _ happly =>
      generalize hx : RewriteError.depthLimit location limit = x at happly
      cases happly with
      | stopped e => cases e <;> cases hx

theorem Measured.rewrittenAround (hp : Measured p.stack) {location : Location} {limit : Nat}
    (h : p.step = .stopped (.depthLimit location limit) q) :
    ∃ chain, chain.length = p.config.maxDepth ∧ p.RewrittenAround chain location := by
  obtain ⟨rfl, f, below, child, pending, hstack, hpending, hlocation, hdepth⟩ :=
    depthLimit_of_stopped h
  rw [hstack] at hp
  rw [innerGrowth_eq hp, ← hstack] at hdepth
  obtain ⟨hlength, hrewritten⟩ := take_rewrittenChain p.stack hdepth
  exact ⟨_, hlength, List.take_prefix _ _, hrewritten, f, below, child, pending, hstack, hpending,
    hlocation⟩

/-! ### Positions and their parents -/

/-- Each position is at a child of the next one out. -/
def Nested (a : Arena) : List Frame → Prop :=
  List.IsChain fun inner outer => ∃ ids, a.children outer.id = .ok ids ∧ inner.id ∈ ids

theorem Nested.innermost {a : Arena} {chain : List Frame} (h : Nested a stack)
    (hchain : chain <+: stack) : Nested a chain := by
  obtain ⟨rest, rfl⟩ := hchain
  exact List.IsChain.left_of_append h

theorem holds_of_fill {a : Arena} {ctx : Context} {n : Placement} (h : a.Holds (ctx.fill n)) :
    a.Holds n := fun e he =>
  h e ((Context.entries_fill ctx n).mem_iff.mpr (List.mem_append_left _ he))

theorem nested_of_encloses {a : Arena} {ctx : Context} {n : Placement} (h : Encloses below ctx)
    (ha : a.Holds (ctx.fill n)) (hf : f.id = n.root) : Nested a (f :: below) := by
  induction ctx generalizing f below n with
  | nil =>
      cases h
      exact .singleton f
  | cons k ctx ih =>
      cases h with
      | @cons g _ below _ hg hrest =>
          refine .cons_cons ?_ (ih hrest ha hg.1)
          have hk : a.children k.id = .ok (childIds (k.fill n).slots) :=
            children_eq (l := k.fill n) (holds_of_fill ha)
          rw [hg.1, hk]
          exact ⟨_, rfl, by simp [Layer.fill, Placement.slots, childIds, hf]⟩

/-- In a unit whose nodes form one tree, the stack is a path in it. -/
theorem Coherent.nested (h : p.Coherent root) : Nested p.arena p.stack := by
  rcases h with ⟨ctx, below, n, rest, apps, growth, h⟩ | ⟨l, h⟩
  · rw [h.position.stack]
    exact nested_of_encloses h.encloses
      (h.position.owns.perm (Context.entries_fill ctx n).symm).holds_all rfl
  · rw [h.stack]
    exact .nil

end Pass

namespace Engine

variable {e : Engine} {a : Arena} {root : NodeId} {l : Placement}

def NothingMatches (e : Engine) (a : Arena) : Prop :=
  ∀ id, a.contains id → ∀ rule ∈ e.rules.rules,
    (Pass.matcher e.config).run rule.pattern a id = .ok none

theorem NothingMatches.normal (h : e.NothingMatches a) (hl : a.Holds l) :
    (e.rewriter a.origin).Normal l.tree := by
  induction l using induct with
  | node id line label slots ih =>
      refine .node (fun t ht => ?_) (RuleStore.firstOn_eq_none fun side hside => ?_)
      · obtain ⟨m, hm, rfl⟩ := exists_of_mem_treesIn ht
        exact ih m hm (hl.below.holds hm)
      · obtain ⟨rule, hrule, rfl⟩ := List.mem_map.mp hside
        have hnone := h _ hl.contains rule hrule
        cases hmatch : (Pass.matcher e.config).treeMatch true rule.pattern.tree
            (Placement.node id line label slots).tree [] with
        | none => exact hmatch
        | some s =>
            obtain ⟨b, hb, -⟩ := Matcher.run_of_some hl hmatch
            rw [hb] at hnone
            cases hnone

/-- A pass in which nothing matches comes to its end, whatever the depth of the unit. -/
theorem NothingMatches.processWithin_eq (h : e.NothingMatches a) (hdepth : 0 < e.config.maxDepth)
    (hunit : a.TreeShaped root) {t : Tree} (ht : a.tree root = .ok t) {steps : Nat}
    (hsteps : 2 * t.size ≤ steps) :
    ∃ s, s.rewrites = 0 ∧ e.processWithin steps a = ⟨.ok s, e, a⟩ := by
  obtain ⟨l, rfl, ha⟩ := hunit.exists_owns
  have hl := ha.holds_all
  cases hl.tree_eq.symm.trans ht
  by_cases hrules : e.rules.size = 0
  · exact ⟨.zero, rfl, processWithin_of_noRules hrules steps a⟩
  · exact ⟨_, rfl, processWithin_of_normal ha hunit.root_eq hrules (h.normal hl) (.inl hdepth) hsteps⟩

/-- In every state of a pass all counters are exact, and no position exceeds the limit. -/
theorem PassState.measured {p : Pass} (hp : e.PassState a root p) :
    Pass.Measured p.stack ∧ p.WithinLimit ∧ p.config = e.config := by
  obtain ⟨first, steps, hbegin, hrun⟩ := hp
  obtain ⟨children, rfl⟩ := exists_of_beginPass hbegin
  have hfirst : Pass.Measured [⟨root, children, 0, 0⟩] :=
    Pass.measured_cons.mpr ⟨rfl, fun f below h => by simp at h⟩
  obtain ⟨hwithin, hconfig⟩ := Pass.WithinLimit.run (by simp [Pass.WithinLimit]) hrun
  exact ⟨Pass.Measured.run hfirst hrun, hwithin, hconfig⟩

/-- The growth counter measures the chain of rewritten positions around a position. In every state of
a pass over any unit with any rules, the growth of each position on the stack is the number of
positions directly below it that have been rewritten, up to the first that has not, and none has been
rewritten more often than the limit admits. So the depth limit is met only where so many positions
have been rewritten in this visit, each of them the parent of the next; and a unit in which no rule
matches is accepted, however deep it is. -/
theorem growth_measures_chain (e : Engine) (a : Arena) :
    (∀ root p, e.PassState a root p → ∀ f below, f :: below <:+ p.stack →
      f.growth = Pass.rewrittenChain below ∧ f.applications ≤ e.config.maxRewritesPerNode) ∧
    (∀ steps location limit, (e.processWithin steps a).result = .error (.depthLimit location limit) →
      limit = e.config.maxDepth ∧ ∃ root p chain, a.root = some root ∧ e.PassState a root p ∧
        chain.length = e.config.maxDepth ∧ p.RewrittenAround chain location ∧
          (a.TreeShaped root → Pass.Nested p.arena chain)) ∧
    (0 < e.config.maxDepth → e.NothingMatches a → ∀ root t, a.TreeShaped root → a.tree root = .ok t →
      ∀ steps, 2 * t.size ≤ steps →
        ∃ s, s.rewrites = 0 ∧ e.processWithin steps a = ⟨.ok s, e, a⟩) := by
  refine ⟨fun root p hp f below hf => ?_, fun steps location limit hresult => ?_,
    fun hdepth hquiet root t hunit ht steps hsteps => hquiet.processWithin_eq hdepth hunit ht hsteps⟩
  · obtain ⟨hmeasured, hwithin, hconfig⟩ := hp.measured
    exact ⟨hmeasured f below hf, hconfig ▸ hwithin f (hf.subset List.mem_cons_self)⟩
  · obtain ⟨root, p, q, hroot, hp, hstop, -⟩ := exists_passState_of_error hresult rfl
    obtain ⟨hmeasured, -, hconfig⟩ := hp.measured
    obtain ⟨chain, hlength, haround⟩ := hmeasured.rewrittenAround hstop
    obtain ⟨hlimit, -⟩ := Pass.depthLimit_of_stopped hstop
    rw [hconfig] at hlength hlimit
    exact ⟨hlimit, root, p, chain, hroot, hp, hlength, haround, fun hunit =>
      (hp.coherent hunit).nested.innermost haround.innermost⟩

/-- An engine with a rule that puts an addition of zero one level deeper each time. -/
def sinkZero : Engine :=
  ((Engine.new defaultSigil { maxDepth := 2 }).register [⟨"$x + 0", "-($x + 0)"⟩]).2

def oneTree : Tree :=
  .list .stmtList [.literal (.int 1) 1] 1

theorem sinkZero_nothingMatches : sinkZero.NothingMatches (.ofTree "unit" oneTree) := by
  have hall : ∀ id < 2, ∀ rule ∈ sinkZero.rules.rules,
      ((Pass.matcher sinkZero.config).run rule.pattern (.ofTree "unit" oneTree) id).toOption =
        some none := by decide +kernel
  intro id hid rule hrule
  obtain ⟨c, hc⟩ := Arena.contains_iff.mp hid
  have hsize : (Arena.ofTree "unit" oneTree).cells.size = 2 := by decide +kernel
  have hnone := hall id (hsize ▸ Arena.lt_size_of_cell? hc) rule hrule
  cases hrun : (Pass.matcher sinkZero.config).run rule.pattern (.ofTree "unit" oneTree) id with
  | error f =>
      rw [hrun] at hnone
      cases hnone
  | ok o =>
      rw [hrun] at hnone
      cases hnone
      rfl

/-- The sum is found again inside the two negations that it has got; a unit without a sum is left as
it is. -/
theorem sinkZero_growth :
    (∃ root p chain, sinkZero.PassState (.ofTree "unit" sumTree) root p ∧ chain.length = 2 ∧
      p.RewrittenAround chain ⟨"unit", 1⟩ ∧ Pass.Nested p.arena chain) ∧
    ∃ s, s.rewrites = 0 ∧ sinkZero.processWithin 4 (.ofTree "unit" oneTree) =
      ⟨.ok s, sinkZero, .ofTree "unit" oneTree⟩ := by
  obtain ⟨root, hsum, -⟩ := Arena.ofTree_treeShaped "unit" (t := sumTree) (by decide)
  obtain ⟨root', hone, htree⟩ := Arena.ofTree_treeShaped "unit" (t := oneTree) (by decide)
  have hresult : (sinkZero.processWithin 20 (.ofTree "unit" sumTree)).result =
      .error (.depthLimit ⟨"unit", 1⟩ 2) := by
    decide +kernel
  obtain ⟨-, hdepth, -⟩ := growth_measures_chain sinkZero (.ofTree "unit" sumTree)
  obtain ⟨-, -, haccepts⟩ := growth_measures_chain sinkZero (.ofTree "unit" oneTree)
  obtain ⟨hlimit, root'', p, chain, hroot, hp, hlength, haround, hnested⟩ := hdepth 20 _ _ hresult
  cases hroot.symm.trans hsum.root_eq
  exact ⟨⟨root, p, chain, hp, hlength.trans hlimit.symm, haround, hnested hsum⟩,
    haccepts (hlimit ▸ Nat.zero_lt_two) sinkZero_nothingMatches root' oneTree hone htree 4 (by decide)⟩

end Engine

end SnippetRewrite
