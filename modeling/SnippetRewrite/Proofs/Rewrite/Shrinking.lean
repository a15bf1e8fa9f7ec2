import Mathlib.Algebra.Order.BigOperators.Group.List
import Mathlib.Algebra.Order.Ring.Nat
import SnippetRewrite.Proofs.Rewrite.Accounting
import SnippetRewrite.Proofs.Rewrite.Settling
import SnippetRewrite.Proofs.Rule.Collapse

/-!
Rules that shrink what they match. A tree that a pattern matches holds the trees bound to its capture
points, each as often as the name occurs, and a node for each node of the pattern that is not
transparent; an instance of a template holds no more than the bound trees and the nodes of the
template. If the template has fewer nodes than the pattern and no more capture points of any name,
each application makes the unit smaller, and rewriting comes to an end.
-/

namespace SnippetRewrite

open Placement

namespace TreeBindings

variable {b c d : TreeBindings} {name : String} {t : Tree}

def Keeps (b c : TreeBindings) : Prop :=
  ∀ name t, b.get? name = some t → c.get? name = some t

theorem Keeps.refl (b : TreeBindings) : b.Keeps b := fun _ _ h => h

theorem Keeps.trans (h : b.Keeps c) (h' : c.Keeps d) : b.Keeps d :=
  fun name t ht => h' name t (h name t ht)

def weight (b : TreeBindings) (name : String) : Nat :=
  ((b.get? name).map Tree.size).getD 0

/-- The number of nodes that stand at capture points. -/
def weights (b : TreeBindings) (names : List String) : Nat :=
  (names.map b.weight).sum

theorem weight_of_get? (h : b.get? name = some t) : b.weight name = t.size := by
  rw [weight, h]
  rfl

@[simp] theorem weights_nil (b : TreeBindings) : b.weights [] = 0 := rfl

@[simp] theorem weights_singleton (b : TreeBindings) (name : String) :
    b.weights [name] = b.weight name := by
  simp [weights]

@[simp] theorem weights_append (b : TreeBindings) (names names' : List String) :
    b.weights (names ++ names') = b.weights names + b.weights names' := by
  simp [weights]

/-- Names that occur no more often weigh no more. -/
theorem weights_le {names names' : List String}
    (h : ∀ name ∈ names, names.count name ≤ names'.count name) (b : TreeBindings) :
    b.weights names ≤ b.weights names' := by
  obtain ⟨kept, hperm, hsub⟩ := List.subperm_ext_iff.mpr h
  rw [weights, weights, ← (hperm.map b.weight).sum_eq]
  exact (hsub.map b.weight).sum_le_sum fun _ _ => Nat.zero_le _

end TreeBindings

namespace Tree

theorem size_unwrapSingle_le (t : Tree) : t.unwrapSingle.size ≤ t.size := by
  induction t using unwrapSingle.induct with
  | case1 line only ih =>
      rw [unwrapSingle, size_node, sizeIn_some]
      omega
  | case2 t hne => rw [unwrapSingle.eq_2 t hne]

mutual

theorem size_eq_of_same : (t u : Tree) → t.same u = true → t.size = u.size
  | .node line label slots, .node line' label' slots', h => by
    rw [same, Bool.and_eq_true] at h
    rw [size_node, size_node, sizeIn_eq_of_sameSlots slots slots' h.2]

theorem sizeIn_eq_of_sameSlots : (xs ys : List (Option Tree)) → sameSlots xs ys = true →
    sizeIn xs = sizeIn ys
  | [], [], _ => rfl
  | none :: xs, none :: ys, h => sizeIn_eq_of_sameSlots xs ys h
  | some x :: xs, some y :: ys, h => by
    rw [sameSlots, Bool.and_eq_true] at h
    rw [sizeIn_some, sizeIn_some, size_eq_of_same x y h.1, sizeIn_eq_of_sameSlots xs ys h.2]
  | [], none :: _, h | [], some _ :: _, h | none :: _, [], h | some _ :: _, [], h
  | none :: _, some _ :: _, h | some _ :: _, none :: _, h => by simp [sameSlots] at h

end

end Tree

namespace Matcher

open TreeBindings

variable {m : Matcher} {b c f : TreeBindings} {t u v : Tree} {line : Nat} {label : Label}
  {slots : List (Option Tree)}

mutual

/-- The number of nodes of a pattern that are compared with nodes: capture points and transparent
lists are left out. -/
def ownNodes (m : Matcher) : Tree → Nat
  | .node _ (.capture _) _ => 0
  | .node _ label slots => (if m.isTransparent label slots then 0 else 1) + ownNodesIn m slots

def ownNodesIn (m : Matcher) : List (Option Tree) → Nat
  | [] => 0
  | none :: rest => ownNodesIn m rest
  | some t :: rest => ownNodes m t + ownNodesIn m rest

end

/-- A pattern matcher to which all nodes are nodes. -/
def strict : Matcher := ⟨false⟩

/-- A pattern matcher to which statement lists with exactly one statement are transparent. -/
def lenient : Matcher := ⟨true⟩

theorem ownNodes_node (m : Matcher) (line : Nat) (hlabel : ∀ name, label ≠ .capture name)
    (slots : List (Option Tree)) :
    m.ownNodes (.node line label slots) =
      (if m.isTransparent label slots then 0 else 1) + m.ownNodesIn slots := by
  cases label with
  | capture name => exact (hlabel name rfl).elim
  | _ => rw [ownNodes]; simp

theorem isTransparent_lenient (h : m.isTransparent label slots = true) :
    lenient.isTransparent label slots = true := by
  simp only [isTransparent, lenient, Bool.and_eq_true, Bool.true_and] at h ⊢
  exact ⟨h.1.2, h.2⟩

mutual

/-- No matcher compares fewer nodes than one to which single statements are transparent. -/
theorem ownNodes_lenient_le (m : Matcher) : (p : Tree) → lenient.ownNodes p ≤ m.ownNodes p
  | .node line label slots => by
    rcases label.capture_or with ⟨name, rfl⟩ | hlabel
    · rw [ownNodes, ownNodes]
    · rw [ownNodes_node lenient line hlabel, ownNodes_node m line hlabel]
      have hrest := ownNodesIn_lenient_le m slots
      split
      · omega
      · rename_i hnot
        rw [if_neg fun h => hnot (isTransparent_lenient h)]
        omega

theorem ownNodesIn_lenient_le (m : Matcher) : (ps : List (Option Tree)) →
    lenient.ownNodesIn ps ≤ m.ownNodesIn ps
  | [] => Nat.le_refl _
  | none :: ps => ownNodesIn_lenient_le m ps
  | some p :: ps => Nat.add_le_add (ownNodes_lenient_le m p) (ownNodesIn_lenient_le m ps)

end

theorem size_seenTree_le (m : Matcher) (t : Tree) : (m.seenTree t).size ≤ t.size := by
  unfold seenTree
  split
  · exact t.size_unwrapSingle_le
  · exact Nat.le_refl _

theorem bindTree_keeps {name : String} (h : bindTree b name t = some c) :
    b.Keeps c ∧ (c.Keeps f → f.weight name = t.size) := by
  simp only [bindTree] at h
  cases hb : b.get? name with
  | none =>
      rw [hb] at h
      cases h
      constructor
      · intro name' u hu
        rw [get?_append, hu]
        rfl
      · intro hf
        refine weight_of_get? (hf name t ?_)
        rw [get?_append, hb, get?_singleton]
        simp
  | some u =>
      simp only [hb] at h
      split at h
      · rename_i hsame
        cases h
        exact ⟨.refl b, fun hf =>
          (weight_of_get? (hf name u hb)).trans (Tree.size_eq_of_same u t hsame)⟩
      · cases h

/-- What a match says about sizes: bindings stay, and the nodes of the pattern and the bound trees
all have their place in the target. -/
structure Covers (b c : TreeBindings) (nodes : Nat) (names : List String) (size : Nat) : Prop where
  keeps : b.Keeps c
  covers : ∀ f, c.Keeps f → nodes + f.weights names ≤ size

mutual

theorem treeMatch_covers (m : Matcher) : (p : Tree) → (direct : Bool) → (t : Tree) →
    (b c : TreeBindings) → m.treeMatch direct p t b = some c →
    Covers b c (m.ownNodes p) p.captureOccurrences t.size
  | .node line label slots, direct, t, b, c, h => by
    rcases label.capture_or with ⟨name, rfl⟩ | hlabel
    · rw [treeMatch_capture] at h
      have hle : (if direct then t else m.seenTree t).size ≤ t.size := by
        split
        · exact Nat.le_refl _
        · exact m.size_seenTree_le t
      obtain ⟨hkeeps, hweight⟩ := bindTree_keeps (f := c) h
      refine ⟨hkeeps, fun f hf => ?_⟩
      rw [ownNodes, Tree.captureOccurrences, weights_singleton, (bindTree_keeps h).2 hf]
      omega
    · rw [treeMatch_node m direct line hlabel] at h
      rw [ownNodes_node m line hlabel, Tree.captureOccurrences_node line hlabel]
      split at h
      · rename_i htransparent
        rw [if_pos htransparent, Nat.zero_add]
        exact treeMatchOnly_covers m slots t b c h
      · rename_i hopaque
        rw [if_neg hopaque]
        split at h
        · obtain ⟨hkeeps, hcovers⟩ := treeMatchSlots_covers m slots _ b c h
          refine ⟨hkeeps, fun f hf => ?_⟩
          have hslots := hcovers f hf
          have hseen := m.size_seenTree_le t
          have hnode : (m.seenTree t).size = 1 + Tree.sizeIn (m.seenTree t).slots := by
            cases m.seenTree t
            exact Tree.size_node _ _ _
          omega
        · cases h

theorem treeMatchOnly_covers (m : Matcher) : (ps : List (Option Tree)) → (t : Tree) →
    (b c : TreeBindings) → m.treeMatchOnly ps t b = some c →
    Covers b c (m.ownNodesIn ps) (Tree.captureOccurrencesIn ps) t.size
  | [some only], t, b, c, h => by
    simp only [ownNodesIn, Tree.captureOccurrencesIn, Nat.add_zero, List.append_nil]
    exact treeMatch_covers m only false t b c h
  | [], _, _, _, h => nomatch h
  | [none], _, _, _, h => nomatch h
  | some _ :: _ :: _, _, _, _, h => nomatch h
  | none :: _ :: _, _, _, _, h => nomatch h

theorem treeMatchSlots_covers (m : Matcher) : (ps ts : List (Option Tree)) →
    (b c : TreeBindings) → m.treeMatchSlots ps ts b = some c →
    Covers b c (m.ownNodesIn ps) (Tree.captureOccurrencesIn ps) (Tree.sizeIn ts)
  | [], [], b, c, h => by
    cases h
    exact ⟨.refl b, fun _ _ => Nat.le_refl _⟩
  | none :: ps, none :: ts, b, c, h => treeMatchSlots_covers m ps ts b c h
  | some p :: ps, some t :: ts, b, c, h => by
    obtain ⟨d, hd, h⟩ := Option.bind_eq_some_iff.mp h
    obtain ⟨hkeeps, hfirst⟩ := treeMatch_covers m p true t b d hd
    obtain ⟨hkeeps', hrest⟩ := treeMatchSlots_covers m ps ts d c h
    refine ⟨hkeeps.trans hkeeps', fun f hf => ?_⟩
    have hp := hfirst f (hkeeps'.trans hf)
    have hps := hrest f hf
    rw [ownNodesIn, Tree.captureOccurrencesIn, weights_append, Tree.sizeIn_some]
    omega
  | [], _ :: _, _, _, h => nomatch h
  | none :: _, [], _, _, h => nomatch h
  | none :: _, some _ :: _, _, _, h => nomatch h
  | some _ :: _, [], _, _, h => nomatch h
  | some _ :: _, none :: _, _, _, h => nomatch h

end

end Matcher

namespace Tree

open Matcher

variable {s : TreeBindings} {line : Nat} {v : Tree} {vs : List (Option Tree)}

theorem ownNodes_strict (line : Nat) {label : Label} (hlabel : ∀ name, label ≠ .capture name)
    (slots : List (Option Tree)) :
    strict.ownNodes (.node line label slots) = 1 + strict.ownNodesIn slots :=
  ownNodes_node strict line hlabel slots

mutual

/-- An instance has no more nodes than the template and the bound trees. -/
theorem size_instance_le : (u : Tree) → (v : Tree) → u.instantiate s line = .ok v →
    v.size ≤ strict.ownNodes u + s.weights u.captureOccurrences
  | .node line' label slots, v, h => by
    rcases instance_cases h with ⟨name, rfl, hget⟩ | ⟨kind, value, rfl, rfl⟩ | ⟨hlabel, ws, hws, rfl⟩
    · rw [ownNodes, captureOccurrences, TreeBindings.weights_singleton,
        TreeBindings.weight_of_get? hget, Nat.zero_add]
    · rw [ownNodes_strict line' (by simp) slots, size_node, sizeIn_nil]
      omega
    · have hrest := sizeIn_instances_le slots ws hws
      rw [ownNodes_strict line' hlabel slots, captureOccurrences_node line' hlabel, size_node]
      omega

theorem sizeIn_instances_le : (us vs : List (Option Tree)) → instantiateSlots s line us = .ok vs →
    sizeIn vs ≤ strict.ownNodesIn us + s.weights (captureOccurrencesIn us)
  | [], vs, h => by
    cases h
    exact Nat.zero_le _
  | none :: us, vs, h => by
    obtain ⟨ws, hws, h⟩ := bind_eq_ok.mp h
    cases h
    exact sizeIn_instances_le us ws hws
  | some u :: us, vs, h => by
    obtain ⟨v, hv, h⟩ := bind_eq_ok.mp h
    obtain ⟨ws, hws, h⟩ := bind_eq_ok.mp h
    cases h
    have hfirst := size_instance_le u v hv
    have hrest := sizeIn_instances_le us ws hws
    rw [sizeIn_some, ownNodesIn, captureOccurrencesIn, TreeBindings.weights_append]
    omega

end

end Tree

/-- The template has no more capture points of any name than the pattern, and fewer other nodes than
the pattern has where statement lists with exactly one statement are not counted. -/
structure Shrinks (p : Pattern) (u : Template) : Prop where
  captures : ∀ name ∈ u.tree.captureOccurrences,
    u.tree.captureOccurrences.count name ≤ p.tree.captureOccurrences.count name
  nodes : Matcher.strict.ownNodes u.tree < Matcher.lenient.ownNodes p.tree

instance (p : Pattern) (u : Template) : Decidable (Shrinks p u) :=
  decidable_of_iff
    ((∀ name ∈ u.tree.captureOccurrences,
        u.tree.captureOccurrences.count name ≤ p.tree.captureOccurrences.count name) ∧
      Matcher.strict.ownNodes u.tree < Matcher.lenient.ownNodes p.tree)
    ⟨fun h => ⟨h.1, h.2⟩, fun h => ⟨h.captures, h.nodes⟩⟩

namespace Shrinks

variable {p : Pattern} {u : Template} {m : Matcher} {t v : Tree} {b : TreeBindings} {line : Nat}

/-- What takes the place of a matched tree is smaller. -/
theorem size_lt (h : Shrinks p u) (hmatch : m.treeMatch true p.tree t [] = some b)
    (hv : u.tree.instantiate b line = .ok v) : v.size < t.size :=
  calc
    v.size ≤ Matcher.strict.ownNodes u.tree + b.weights u.tree.captureOccurrences :=
      Tree.size_instance_le u.tree v hv
    _ < Matcher.lenient.ownNodes p.tree + b.weights u.tree.captureOccurrences :=
      Nat.add_lt_add_right h.nodes _
    _ ≤ m.ownNodes p.tree + b.weights p.tree.captureOccurrences :=
      Nat.add_le_add (m.ownNodes_lenient_le p.tree) (TreeBindings.weights_le h.captures b)
    _ ≤ t.size := (Matcher.treeMatch_covers m _ _ _ _ _ hmatch).covers b (.refl b)

end Shrinks

/-! ### Rewriting comes to an end -/

/-- The errors that the limits of the settings raise. -/
inductive RewriteError.IsLimit : RewriteError → Prop
  | ruleCycle (rule : RuleId) (location : Location) (limit : Nat) :
    IsLimit (.ruleCycle rule location limit)
  | depthLimit (location : Location) (limit : Nat) : IsLimit (.depthLimit location limit)

namespace Rewriter

variable {r : Rewriter} {bound : Nat} {t : Tree} {slots : List (Option Tree)}

/-- All rules were compiled and shrink what they match. -/
structure Shrinking (r : Rewriter) : Prop where
  compiled : ∀ side ∈ r.sides, Compiled side.1 side.2
  shrinks : ∀ side ∈ r.sides, Shrinks side.1 side.2

/-- The result is no larger than so many nodes, or a limit of the settings was reached. -/
def Within {α : Type} (size : α → Nat) (n : Nat) : Except RewriteError (α × Summary) → Prop
  | .ok result => size result.1 ≤ n
  | .error x => x.IsLimit

namespace Within

variable {α β : Type} {size : α → Nat} {size' : β → Nat} {m n : Nat}
  {x : Except RewriteError (α × Summary)}

theorem bind {f : α × Summary → Except RewriteError (β × Summary)} (h : Within size n x)
    (hf : ∀ v s, size v ≤ n → Within size' m (f (v, s))) : Within size' m (x >>= f) := by
  cases x with
  | error e => exact h
  | ok result => exact hf result.1 result.2 h

theorem mono (h : Within size n x) (hle : n ≤ m) : Within size m x := by
  cases x with
  | error e => exact h
  | ok result => exact Nat.le_trans h hle

end Within

theorem visitSlots_within (r : Rewriter) (growth : Nat) {visit : Visitor}
    (hvisit : ∀ t, some t ∈ slots → ∀ s, Within Tree.size t.size (visit t s)) (s : Summary) :
    Within Tree.sizeIn (Tree.sizeIn slots) (visitSlots (r.visitChild growth visit) slots s) := by
  induction slots generalizing s with
  | nil => exact Nat.le_refl _
  | cons o rest ih =>
      have hrest := ih fun t ht => hvisit t (List.mem_cons_of_mem _ ht)
      cases o with
      | none =>
          rw [visitSlots]
          exact (hrest s).bind fun us _ hus => hus
      | some t =>
          have hchild (s : Summary) : Within Tree.size t.size (r.visitChild growth visit t s) := by
            rw [visitChild]
            split
            · exact .depthLimit _ _
            · exact hvisit t List.mem_cons_self _
          rw [visitSlots]
          refine (hchild s).bind fun u s₁ hu => (hrest s₁).bind fun us s₂ hus => ?_
          show Tree.sizeIn (some u :: us) ≤ _
          rw [Tree.sizeIn_some, Tree.sizeIn_some]
          omega

theorem settle_within (h : r.Shrinking) {again : Visitor} (apps : Nat) (s : Summary)
    (hagain : ∀ v, v.size < t.size → ∀ s, Within Tree.size v.size (again v s)) :
    Within Tree.size t.size (r.settle apps again t s) := by
  rw [settle]
  split
  · exact Nat.le_refl _
  · rename_i i u b hfirst
    obtain ⟨p, hside, hmatch⟩ := RuleStore.exists_of_firstOn hfirst
    split
    · exact .ruleCycle _ _ _
    · obtain ⟨v, hv⟩ := (h.compiled _ hside).exists_instance hmatch t.line
      have hlt := (h.shrinks _ hside).size_lt hmatch hv
      rw [hv]
      exact (hagain v hlt _).mono (Nat.le_of_lt hlt)

/-- With rules that shrink what they match the recursion goes no deeper than the size of the tree:
children are smaller than their parent, and so is what takes the place of a matched tree. -/
theorem rewrite_within (h : r.Shrinking) (hbound : t.size ≤ bound) (apps growth : Nat)
    (s : Summary) :
    Within Tree.size t.size (r.rewrite bound apps growth t s) := by
  induction bound generalizing t apps growth s with
  | zero =>
      have := t.size_pos
      omega
  | succ bound ih =>
      obtain ⟨line, label, slots⟩ := t
      rw [Tree.size_node] at hbound ⊢
      have hvisit (u : Tree) (hu : some u ∈ slots) (s : Summary) :
          Within Tree.size u.size (r.rewrite bound 0 (innerGrowth apps growth) u s) := by
        have := Tree.size_le_sizeIn hu
        exact ih (by omega) 0 _ s
      rw [rewrite]
      refine (r.visitSlots_within (innerGrowth apps growth) hvisit s).bind fun us s₁ hus => ?_
      have hsize : (Tree.node line label us).size ≤ 1 + Tree.sizeIn slots := by
        rw [Tree.size_node]
        omega
      refine (settle_within h apps s₁ fun v hlt s => ?_).mono hsize
      exact ih (by omega) (apps + 1) growth s

end Rewriter

/-! ### Applications make the unit smaller -/

namespace Pass

variable {p : Pass} {root : NodeId}

/-- One application makes the unit smaller. -/
theorem Coherent.liveCount_lt (hp : p.Coherent root)
    (hc : ∀ side ∈ p.rules.sides, Compiled side.1 side.2)
    (hs : ∀ side ∈ p.rules.sides, Shrinks side.1 side.2) {f : Frame} {below : List Frame}
    {i : RuleId} {rule : Rule} {b : Bindings} (h : p.Applies f below i rule b) :
    0 < p.step.pass.arena.liveCount ∧ p.step.pass.arena.liveCount < p.arena.liveCount := by
  obtain ⟨q, ctx, n, m, s, hdue, hinstance, hq, happlied⟩ :=
    hp.exists_exchanges (hc _ h.sides_mem) h
  have hlt : m.tree.size < n.tree.size := (hs _ h.sides_mem).size_lt hdue.matched hinstance
  -- the entries around the position are the same before and after
  have hbefore := hdue.owns.liveCount_eq
  have hafter := happlied.owns.liveCount_eq
  rw [List.length_append, ← n.size_tree] at hbefore
  rw [List.length_append, ← m.size_tree] at hafter
  have hpos := m.tree.size_pos
  rw [hq]
  show 0 < q.arena.liveCount ∧ q.arena.liveCount < p.arena.liveCount
  omega

end Pass

namespace Replacement

variable {a b : Arena} {rs : List Replacement}

/-- There are fewer replacements than nodes if each makes the unit smaller. -/
theorem Lead.length_lt (h : Lead a rs b) (ha : 0 < a.liveCount)
    (hlt : ∀ r ∈ rs, 0 < r.after.liveCount ∧ r.after.liveCount < r.before.liveCount) :
    rs.length < a.liveCount := by
  induction h with
  | nil a => exact ha
  | @cons a b r rs hr _ ih =>
      subst hr
      obtain ⟨hpos, hsmaller⟩ := hlt r List.mem_cons_self
      have hrest := ih hpos fun x hx => hlt x (List.mem_cons_of_mem r hx)
      rw [List.length_cons]
      omega

end Replacement

namespace Engine

variable {e : Engine} {a : Arena} {root : NodeId}

/-- Each replacement of a pass makes the unit smaller. -/
theorem liveCount_lt_of_replacement (he : e.InUse) (h : a.TreeShaped root)
    (hs : ∀ side ∈ e.rules.sides, Shrinks side.1 side.2) {steps : Nat} {r : Replacement}
    (hr : r ∈ e.replacements steps a) :
    0 < r.after.liveCount ∧ r.after.liveCount < r.before.liveCount := by
  obtain ⟨root', p, hroot, hstate, hp⟩ := exists_passState_of_replacement hr
  cases hroot.symm.trans h.root_eq
  have hcoherent := hstate.coherent h
  have hc : ∀ side ∈ p.rules.sides, Compiled side.1 side.2 := hstate.sides_eq ▸ he.compiled
  obtain ⟨f, below, rule, b, happlies, -, hbefore⟩ := Pass.exists_applies_of_replacement hp
  rw [hbefore, hcoherent.after_of_replacement hc hp]
  exact hcoherent.liveCount_lt hc (hstate.sides_eq ▸ hs) happlies

/-- Rules that shrink what they match come to an end. On every unit whose nodes form one tree, and
whatever the settings are, a pass ends after a number of steps, either well or at one of the limits;
each replacement leaves the unit with fewer nodes than before, and there are fewer replacements than
the unit had nodes. -/
theorem processWithin_shrinking (he : e.InUse) (h : a.TreeShaped root)
    (hs : ∀ rule ∈ e.rules.rules, Shrinks rule.pattern rule.template) :
    (∃ enough result, (∀ steps, enough ≤ steps → (e.processWithin steps a).result = result) ∧
      ∀ x, result = .error x → x.IsLimit) ∧
    ∀ steps, (e.replacements steps a).length < a.liveCount ∧
      ∀ r ∈ e.replacements steps a, r.after.liveCount < r.before.liveCount := by
  obtain ⟨l, rfl, ha⟩ := h.exists_owns
  have hsides : ∀ side ∈ e.rules.sides, Shrinks side.1 side.2 := by
    intro side hside
    obtain ⟨rule, hrule, rfl⟩ := List.mem_map.mp hside
    exact hs rule hrule
  have hlive : 0 < a.liveCount := by
    rw [ha.liveCount_eq, ← l.size_tree]
    exact l.tree.size_pos
  constructor
  · by_cases hrules : e.rules.size = 0
    · refine ⟨0, .ok .zero, fun steps _ => ?_, by simp⟩
      rw [processWithin_of_noRules hrules]
    · have hwithin := Rewriter.rewrite_within (r := e.rewriter a.origin) ⟨he.compiled, hsides⟩
        (Nat.le_refl l.tree.size) 0 0 ⟨0, 1⟩
      have hlimit : ∀ x, (e.rewriter a.origin).rewriteUnit l.tree.size l.tree = .error x →
          x.IsLimit := by
        intro x hx
        rw [Rewriter.rewriteUnit] at hx
        rw [hx] at hwithin
        exact hwithin
      obtain ⟨enough, hmatches⟩ := exists_matches ha h.root_eq hrules fun hcut => by
        cases hlimit _ hcut
      refine ⟨enough, _, fun steps hle => (hmatches steps hle).1, fun x hx => ?_⟩
      cases hend : (e.rewriter a.origin).rewriteUnit l.tree.size l.tree with
      | error y =>
          rw [hend] at hx
          cases hx
          exact hlimit x hend
      | ok result =>
          rw [hend] at hx
          cases hx
  · intro steps
    have hlt : ∀ r ∈ e.replacements steps a,
        0 < r.after.liveCount ∧ r.after.liveCount < r.before.liveCount :=
      fun r hr => liveCount_lt_of_replacement he h hsides hr
    obtain ⟨p, s, -, -, -, rfl, hbooks, -⟩ := exists_books he h steps
    exact ⟨hbooks.leads.length_lt hlive hlt, fun r hr => (hlt r hr).2⟩

/-- The pass that drops an addition of zero. -/
theorem dropZero_shrinking :
    ∃ root, dropZero.InUse ∧ (Arena.ofTree "unit" sumTree).TreeShaped root ∧
      (∀ rule ∈ dropZero.rules.rules, Shrinks rule.pattern rule.template) ∧
      (∀ steps, (dropZero.replacements steps (.ofTree "unit" sumTree)).length < 4) := by
  obtain ⟨root, hshape, -⟩ := Arena.ofTree_treeShaped "unit" (t := sumTree) (by decide)
  have hused : dropZero.InUse := by
    rw [dropZero]
    exact ((Reached.new defaultSigil {}).register [⟨"$x + 0", "$x"⟩]).inUse
  have hshrinks : ∀ rule ∈ dropZero.rules.rules, Shrinks rule.pattern rule.template := by
    decide +kernel
  have hlive : (Arena.ofTree "unit" sumTree).liveCount = 4 := by decide +kernel
  refine ⟨root, hused, hshape, hshrinks, fun steps => ?_⟩
  rw [← hlive]
  exact ((processWithin_shrinking hused hshape hshrinks).2 steps).1

end Engine

end SnippetRewrite
