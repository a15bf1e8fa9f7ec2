import SnippetRewrite.Proofs.Arena.TreeShape
import SnippetRewrite.Proofs.Rewrite.Reference
import SnippetRewrite.Proofs.Rewrite.Run
import SnippetRewrite.Proofs.Rewrite.Step

/-!
A pass does in place what the recursive function does with trees. While a position is visited the
arena consists of the subtree at the position and of entries around it that the visit leaves alone:
the slots of the parents on the stack stay where they are, because a rewritten subtree keeps the
slot of its root. The simulation follows the recursion of the function, and inside it the list of
children.
-/

namespace SnippetRewrite

open Placement

/-- What the visit of a position leaves as it is: the rules and settings, the root of the unit, the
positions further out, and the entries around the subtree. -/
structure Outside where
  rewriter : Rewriter
  root : NodeId
  below : List Frame
  entries : List Entry

/-- What the visit of a child leaves as it is, if `k` is its parent. -/
def Outside.inner (o : Outside) (k : Layer) (hole : NodeId) (apps growth : Nat) : Outside where
  rewriter := o.rewriter
  root := o.root
  below := ⟨k.id, childIds k.after, apps, growth⟩ :: o.below
  entries := Context.entries [k] hole ++ o.entries

namespace Pass

variable {p q : Pass} {o : Outside} {n : Placement} {rest : List (Option Placement)}
  {apps growth bound : Nat}

/-- The innermost position of the pass is at the root of `n`, with the children in `rest` still to
be visited. -/
structure At (o : Outside) (p : Pass) (n : Placement) (rest : List (Option Placement))
    (apps growth : Nat) : Prop where
  stack : p.stack = ⟨n.root, childIds rest, apps, growth⟩ :: o.below
  owns : p.arena.Owns (n.entries ++ o.entries)
  rewriter : p.rewriter = o.rewriter
  root : p.arena.root = some o.root
  root_mem : o.root = n.root ∨ o.root ∈ o.entries.map Entry.id

/-- The pass has left a position and `n` is the subtree there. -/
structure Left (o : Outside) (n : Placement) (p : Pass) : Prop where
  stack : p.stack = o.below
  owns : p.arena.Owns (n.entries ++ o.entries)
  rewriter : p.rewriter = o.rewriter
  root : p.arena.root = some o.root

/-- The visit of the position at a slot gives a tree and counts. -/
def Visited (o : Outside) (id : NodeId) (result : Tree × Summary) (p : Pass) : Prop :=
  ∃ n : Placement, n.root = id ∧ n.tree = result.1 ∧ p.Left o n ∧ p.summary = result.2

theorem At.holds (h : p.At o n rest apps growth) : p.arena.Holds n :=
  h.owns.holds

/-- The root of the unit is not below a position. -/
theorem At.root_notMem (h : p.At o n rest apps growth) :
    ∀ x, p.arena.root = some x → x ∉ idsIn n.slots := by
  intro x hx hmem
  rw [h.root] at hx
  cases hx
  rcases h.root_mem with heq | hout
  · exact h.holds.root_notMem (heq ▸ hmem)
  · have hnodup := h.owns.nodup
    rw [List.map_append, List.nodup_append] at hnodup
    refine hnodup.2.2 o.root ?_ o.root hout rfl
    rw [entries_eq n]
    exact List.mem_cons_of_mem _ hmem

theorem Alike.rewriter (h : p.Alike q) : q.rewriter = p.rewriter := by
  simp only [Pass.rewriter, h.config, h.sides, h.origin]

/-- After an application the visit of the position goes on with the instance. -/
theorem At.applied {i : RuleId} {m : Placement} (hp : p.At o n rest apps growth)
    (h : p.Applied q ⟨n.root, childIds rest, apps, growth⟩ o.below i n m o.entries) :
    q.At o m m.slots (apps + 1) growth where
  stack := by rw [h.stack, h.root_eq]
  owns := h.owns
  rewriter := h.alike.rewriter.trans hp.rewriter
  root := h.alike.root.trans hp.root
  root_mem := h.root_eq ▸ hp.root_mem

/-- At a position without children to visit, the pass settles the tree there. -/
theorem settle_simulates (again : Rewriter.Visitor) (hp : p.At o n [] apps growth)
    (hagain : ∀ (q : Pass) (m : Placement), q.At o m m.slots (apps + 1) growth → m.root = n.root →
      q.Simulates bound (Visited o n.root) (again m.tree q.summary)) :
    p.Simulates (bound + 1) (Visited o n.root)
      (o.rewriter.settle apps again n.tree p.summary) := by
  have hr : o.rewriter = p.rewriter := hp.rewriter.symm
  rw [Rewriter.settle, hr]
  simp only [Pass.rewriter, tree_line]
  cases hfirst : RuleStore.firstOn (matcher p.config) n.tree 0 p.rules.sides with
  | none =>
      have hstep := step_leave hp.holds hp.stack rfl rfl hfirst
      exact ⟨1, _, run_one hstep, n, rfl, rfl, ⟨rfl, hp.owns, hp.rewriter, hp.root⟩, rfl⟩
  | some found =>
      obtain ⟨i, u, s⟩ := found
      by_cases happs : apps = p.config.maxRewritesPerNode
      · simp only [if_pos happs]
        exact .of_stopped (step_cycle hp.holds hp.stack rfl rfl hfirst happs) (by simp)
      · simp only [if_neg happs]
        have happly := step_apply hp.owns hp.root_notMem hp.stack rfl rfl hfirst happs
        cases hinstance : u.tree.instantiate s n.line with
        | error v =>
            rw [hinstance] at happly
            obtain ⟨q, hq⟩ := happly
            exact .of_stopped hq (by simp)
        | ok t =>
            rw [hinstance] at happly
            obtain ⟨m, q, hq, rfl, happlied⟩ := happly
            have hrest := hagain q m (hp.applied happlied) happlied.root_eq
            rw [happlied.summary] at hrest
            exact hrest.step hq

/-! ### Children -/

theorem perm_inner (k : Layer) (c : Placement) (es : List Entry) :
    ((k.fill c).entries ++ es).Perm (c.entries ++ (Context.entries [k] c.root ++ es)) := by
  rw [← List.append_assoc]
  exact (Context.entries_fill [k] c).append_right es

theorem At.descend {k : Layer} {c : Placement}
    (hp : p.At o (k.fill c) (some c :: k.after) apps growth)
    (hdepth : ¬ p.config.maxDepth ≤ Rewriter.innerGrowth apps growth) :
    ∃ q, p.step = .going q ∧ q.summary = ⟨p.summary.rewrites, p.summary.nodesVisited + 1⟩ ∧
      q.At (o.inner k c.root apps growth) c c.slots 0 (Rewriter.innerGrowth apps growth) := by
  have hc : p.arena.Holds c := hp.holds.below.holds (by simp [Layer.fill, slots])
  refine ⟨_, (step_descend hc hp.stack rfl).trans (if_neg hdepth), rfl, ?_⟩
  exact
    { stack := rfl
      owns := hp.owns.perm (perm_inner k c o.entries)
      rewriter := hp.rewriter
      root := hp.root
      root_mem := by
        right
        rcases hp.root_mem with heq | hout
        · simp [Outside.inner, Context.entries, heq, Layer.fill, Placement.root]
        · simp only [Outside.inner, List.map_append, List.mem_append]
          exact Or.inr hout }

/-- The return from a child, whose subtree may be another one now. -/
theorem Left.ascend {k : Layer} {m : Placement} (h : p.Left (o.inner k m.root apps growth) m)
    (hroot : o.root = k.id ∨ o.root ∈ o.entries.map Entry.id) :
    p.At o (k.fill m) k.after apps growth where
  stack := h.stack
  owns := h.owns.perm (perm_inner k m o.entries).symm
  rewriter := h.rewriter
  root := h.root
  root_mem := hroot

theorem visitChild_simulates {k : Layer} {c : Placement} {visit : Rewriter.Visitor}
    (hp : p.At o (k.fill c) (some c :: k.after) apps growth)
    (hvisit : ∀ (o' : Outside) (q : Pass) (c : Placement),
      q.At o' c c.slots 0 (Rewriter.innerGrowth apps growth) → o'.rewriter = o.rewriter →
      q.Simulates bound (Visited o' c.root) (visit c.tree q.summary)) :
    p.Simulates (bound + 1)
      (fun result q => ∃ m, m.tree = result.1 ∧ q.At o (k.fill m) k.after apps growth ∧
        q.summary = result.2)
      (o.rewriter.visitChild (Rewriter.innerGrowth apps growth) visit c.tree p.summary) := by
  have hr : o.rewriter = p.rewriter := hp.rewriter.symm
  have hc : p.arena.Holds c := hp.holds.below.holds (by simp [Layer.fill, slots])
  rw [Rewriter.visitChild, hr]
  simp only [Pass.rewriter, tree_line]
  by_cases hdepth : p.config.maxDepth ≤ Rewriter.innerGrowth apps growth
  · rw [if_pos hdepth]
    exact .of_stopped ((step_descend hc hp.stack rfl).trans (if_pos hdepth)) (by simp)
  · rw [if_neg hdepth]
    obtain ⟨q, hstep, hsummary, hq⟩ := hp.descend hdepth
    have hinner := hvisit _ q c hq rfl
    rw [hsummary] at hinner
    refine (hinner.step hstep).imp ?_
    rintro ⟨t, s⟩ x ⟨m, hroot, htree, hleft, hcounts⟩
    rw [← hroot] at hleft
    exact ⟨m, htree, hleft.ascend hp.root_mem, hcounts⟩

/-- The visit of the children in `rest`, once those in `done` have been visited. -/
theorem visitSlots_simulates (visit : Rewriter.Visitor) {id : NodeId} {line : Nat} {label : Label}
    (done : List (Option Placement))
    (hvisit : ∀ (o' : Outside) (q : Pass) (c : Placement),
      q.At o' c c.slots 0 (Rewriter.innerGrowth apps growth) → o'.rewriter = o.rewriter →
      q.Simulates bound (Visited o' c.root) (visit c.tree q.summary))
    (hp : p.At o (.node id line label (done ++ rest)) rest apps growth) :
    p.Simulates (bound + 1)
      (fun result q => ∃ slots, q.At o (.node id line label slots) [] apps growth ∧
        treesIn slots = treesIn done ++ result.1 ∧ q.summary = result.2)
      (Rewriter.visitSlots (o.rewriter.visitChild (Rewriter.innerGrowth apps growth) visit)
        (treesIn rest) p.summary) := by
  induction rest generalizing p done with
  | nil => exact ⟨0, p, rfl, done, by simpa using hp, by simp, rfl⟩
  | cons x rest ih =>
      have hassoc (y : Option Placement) : done ++ y :: rest = (done ++ [y]) ++ rest := by simp
      cases x with
      | none =>
          rw [hassoc] at hp
          have hnext : p.At o (.node id line label ((done ++ [none]) ++ rest)) rest apps growth :=
            ⟨hp.stack, hp.owns, hp.rewriter, hp.root, hp.root_mem⟩
          refine (ih _ hnext).bind ?_
          rintro ⟨ts, s⟩ q ⟨slots, hq, htrees, hsummary⟩
          exact ⟨0, q, rfl, slots, hq, by simpa [treesIn] using htrees, hsummary⟩
      | some c =>
          have hchild : p.At o (Layer.fill ⟨id, line, label, done, rest⟩ c) (some c :: rest) apps
              growth := hp
          refine (visitChild_simulates hchild hvisit).bind ?_
          rintro ⟨t, s⟩ q ⟨m, rfl, hq, rfl⟩
          have hnext : q.At o (.node id line label ((done ++ [some m]) ++ rest)) rest apps growth := by
            rw [← hassoc]
            exact hq
          refine (ih _ hnext).bind ?_
          rintro ⟨ts, s⟩ x ⟨slots, hx, htrees, hsummary⟩
          exact ⟨0, x, rfl, slots, hx, by simpa [treesIn] using htrees, hsummary⟩

/-- A pass visits a position as the function rewrites the tree there. -/
theorem rewrite_simulates (bound : Nat) (hp : p.At o n n.slots apps growth) :
    p.Simulates bound (Visited o n.root)
      (o.rewriter.rewrite bound apps growth n.tree p.summary) := by
  induction bound generalizing p o n apps growth with
  | zero =>
      -- the function gives up at once, and a pass without steps is still going
      exact ⟨fun _ => ⟨p, rfl⟩, fun hne => (hne rfl).elim⟩
  | succ bound ih =>
      obtain ⟨id, line, label, slots⟩ := n
      have hslots := visitSlots_simulates
        (o.rewriter.rewrite bound 0 (Rewriter.innerGrowth apps growth)) []
        (fun o' q c hq hr => hr ▸ ih hq) hp
      refine hslots.bind ?_
      rintro ⟨ts, s⟩ q ⟨slots', hq, htrees, rfl⟩
      have hsettle := settle_simulates (o.rewriter.rewrite bound (apps + 1) growth) hq
        fun x m hx hroot => hroot ▸ ih hx
      simp only [tree, htrees] at hsettle
      exact hsettle

end Pass

/-! ### Whole passes -/

/-- A pass over a unit ended as the function does, and left the tree that the function gives. -/
def Processed.Matches (r : Processed) (root : NodeId)
    (outcome : Except RewriteError (Tree × Summary)) : Prop :=
  r.result = outcome.map Prod.snd ∧
    ∀ t s, outcome = .ok (t, s) → r.arena.root = some root ∧ r.arena.tree root = .ok t

namespace Engine

variable {e : Engine} {a : Arena} {l : Placement}

theorem entered_at (ha : a.Owns l.entries) (hroot : a.root = some l.root) :
    (e.entered a l).At ⟨e.rewriter a.origin, l.root, [], []⟩ l l.slots 0 0 where
  stack := rfl
  owns := by
    rw [List.append_nil]
    exact ha
  rewriter := rfl
  root := hroot
  root_mem := Or.inl rfl

theorem rewriteUnit_simulates (ha : a.Owns l.entries) (hroot : a.root = some l.root)
    (bound : Nat) :
    (e.entered a l).Simulates bound
      (Pass.Visited ⟨e.rewriter a.origin, l.root, [], []⟩ l.root)
      ((e.rewriter a.origin).rewriteUnit bound l.tree) :=
  Pass.rewrite_simulates bound (entered_at ha hroot)

/-- Where the function gives a tree, its counts tell how many steps a pass takes to the same. -/
theorem matches_of_rewriteUnit_ok (ha : a.Owns l.entries) (hroot : a.root = some l.root)
    (hrules : e.rules.size ≠ 0) {bound : Nat} {t : Tree} {s : Summary}
    (hok : (e.rewriter a.origin).rewriteUnit bound l.tree = .ok (t, s)) {steps : Nat}
    (hsteps : 2 * s.nodesVisited + s.rewrites ≤ steps) :
    (e.processWithin steps a).Matches l.root (.ok (t, s)) := by
  have hsim := rewriteUnit_simulates (e := e) ha hroot bound
  rw [hok] at hsim
  obtain ⟨k, q, hk, m, hm, htree, hleft, hsummary⟩ := hsim
  have hheld : q.arena.Holds m := hleft.owns.holds
  have hmeasure := Pass.run_measure hk
  simp only [entered, hleft.stack, hsummary, List.length_cons, List.length_nil] at hmeasure
  rw [processWithin_eq ha.holds_all hroot hrules, Pass.run_of_left hk hleft.stack (by omega)]
  refine ⟨by simp [outcome, finish, hsummary, Except.map], ?_⟩
  rintro t s ⟨⟩
  refine ⟨hleft.root, ?_⟩
  rw [← hm]
  exact hheld.tree_eq.trans (congrArg Except.ok htree)

/-- Where the function gives a result, a pass with enough steps comes to the same. -/
theorem exists_matches (ha : a.Owns l.entries) (hroot : a.root = some l.root)
    (hrules : e.rules.size ≠ 0) {bound : Nat}
    (hend : (e.rewriter a.origin).rewriteUnit bound l.tree ≠ .error .unfinished) :
    ∃ n, ∀ steps, n ≤ steps → (e.processWithin steps a).Matches l.root
      ((e.rewriter a.origin).rewriteUnit bound l.tree) := by
  cases houtcome : (e.rewriter a.origin).rewriteUnit bound l.tree with
  | error x =>
      have hsim := rewriteUnit_simulates (e := e) ha hroot bound
      rw [houtcome] at hsim hend
      obtain ⟨k, q, hk⟩ := hsim.stopped fun heq => hend (by rw [heq])
      refine ⟨k, fun steps hle => ?_⟩
      rw [processWithin_eq ha.holds_all hroot hrules, Pass.run_of_le (by simp [hk]) hle, hk]
      exact ⟨rfl, fun t s h => by cases h⟩
  | ok result =>
      exact ⟨_, fun steps hle => matches_of_rewriteUnit_ok ha hroot hrules houtcome hle⟩

/-- A pass that comes to an end has the outcome of the function, if that is let go as deep as the
pass takes steps. -/
theorem matches_of_ended (ha : a.Owns l.entries) (hroot : a.root = some l.root)
    (hrules : e.rules.size ≠ 0) {steps bound : Nat} (hle : steps ≤ bound)
    (hended : (e.processWithin steps a).result ≠ .error .unfinished) :
    (e.processWithin steps a).Matches l.root ((e.rewriter a.origin).rewriteUnit bound l.tree) := by
  have hl : a.Holds l := ha.holds_all
  -- where the function gives up, the pass takes at least `bound` steps without coming to an end
  have hdeep : (e.rewriter a.origin).rewriteUnit bound l.tree ≠ .error .unfinished := by
    intro hcut
    have hsim := rewriteUnit_simulates (e := e) ha hroot bound
    rw [hcut] at hsim
    obtain ⟨q, hq⟩ := hsim.going rfl
    obtain ⟨q', hq'⟩ := Pass.going_of_le hq hle
    rw [processWithin_eq hl hroot hrules, hq'] at hended
    exact hended rfl
  obtain ⟨n, hn⟩ := exists_matches ha hroot hrules hdeep
  have hmatches := hn (max n steps) (Nat.le_max_left _ _)
  rw [processWithin_of_le hl hroot hrules hended (Nat.le_max_right _ _)] at hmatches
  exact hmatches

/-- In-place rewriting is recursive rewriting: on a unit whose nodes form one tree, a pass that
comes to an end has the outcome of the function, counts and errors included, and leaves its tree;
and it comes to an end whenever the function does. -/
theorem processWithin_matches_rewriteUnit {root : NodeId} (h : a.TreeShaped root)
    (hrules : e.rules.size ≠ 0) :
    ∃ t, a.tree root = .ok t ∧
      (∀ steps bound, steps ≤ bound → (e.processWithin steps a).result ≠ .error .unfinished →
        (e.processWithin steps a).Matches root ((e.rewriter a.origin).rewriteUnit bound t)) ∧
      (∀ bound, (e.rewriter a.origin).rewriteUnit bound t ≠ .error .unfinished →
        ∃ n, ∀ steps, n ≤ steps →
          (e.processWithin steps a).Matches root ((e.rewriter a.origin).rewriteUnit bound t)) := by
  obtain ⟨l, rfl, ha⟩ := h.exists_owns
  exact ⟨l.tree, ha.holds_all.tree_eq,
    fun steps bound hle hended => matches_of_ended ha h.root_eq hrules hle hended,
    fun bound hend => exists_matches ha h.root_eq hrules hend⟩

theorem dropZero_matches_rewriteUnit :
    ∃ root t, (Arena.ofTree "unit" sumTree).TreeShaped root ∧ dropZero.rules.size ≠ 0 ∧
      (dropZero.processWithin 9 (.ofTree "unit" sumTree)).Matches root
        ((dropZero.rewriter (Arena.ofTree "unit" sumTree).origin).rewriteUnit 9 t) := by
  obtain ⟨root, hshape, -⟩ := Arena.ofTree_treeShaped "unit" (t := sumTree) (by decide)
  have hrules : dropZero.rules.size ≠ 0 := by decide +kernel
  obtain ⟨t, -, hends, -⟩ := processWithin_matches_rewriteUnit hshape hrules
  exact ⟨root, t, hshape, hrules, hends 9 9 (Nat.le_refl _) (by decide +kernel)⟩

end Engine

end SnippetRewrite
