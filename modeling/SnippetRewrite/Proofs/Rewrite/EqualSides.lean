import SnippetRewrite.Proofs.Arena.Postorder
import SnippetRewrite.Proofs.Rewrite.Accounting
import SnippetRewrite.Proofs.Rewrite.Settling
import SnippetRewrite.Proofs.Rule.OwnInstance
import SnippetRewrite.Proofs.Syntax.Spelled

/-!
A rule whose sides are the same text. It replaces what it finds by a tree of the same form, in which
no node below the root is matched that was not matched before. So the pass comes to the first node in
postorder at which the rule matches, applies the rule there as often as the limit admits, and stops
with the error that the rule still matches. The unit keeps its form.
-/

namespace SnippetRewrite

open Placement

namespace SnippetReader

variable {r : SnippetReader} {source : String} {p : Pattern} {u : Template}

/-- A snippet is no statement list with exactly one statement. -/
theorem not_isSingle_of_snippet {s : Snippet} (h : r.snippet source = .ok s) :
    ¬ Tree.IsSingle s.tree.label s.tree.slots := by
  obtain ⟨t, -, -, htree, -⟩ := exists_program h
  rw [htree]
  cases hcapture : t.unwrapSingle.captureName? r.sigil with
  | some name =>
      rw [Tree.markCaptures_of_some hcapture]
      rintro ⟨hlabel, -⟩
      cases hlabel
  | none =>
      rw [Tree.markCaptures_of_none hcapture]
      rw [Tree.markSlots_eq_map]
      exact fun hsingle => Tree.not_isSingle_unwrapSingle t (Tree.isSingle_map.mp hsingle)

/-- The sides of a rule that is the same text twice. -/
theorem eq_of_rule (h : r.rule source source = .ok (p, u)) :
    u.tree = p.tree ∧ p.tree.hasShape = true ∧ ¬ Tree.IsSingle p.tree.label p.tree.slots := by
  obtain ⟨hp, hu⟩ := exists_snippets h
  exact ⟨congrArg Snippet.tree (Except.ok.inj (hu.symm.trans hp)), (snippet_shaped hp).1,
    not_isSingle_of_snippet hp⟩

end SnippetReader

namespace Rewriter

variable {r : Rewriter} {p : Pattern} {u : Template} {t v : Tree} {b : TreeBindings}

/-- The only rule has the same text on both sides. Where lists with one statement are transparent, no
capture occurs twice in it. -/
structure Restates (r : Rewriter) (p : Pattern) (u : Template) : Prop where
  sides : r.sides = [(p, u)]
  template : u.tree = p.tree
  shaped : p.tree.hasShape = true
  bare : ¬ Tree.IsSingle p.tree.label p.tree.slots
  once : r.config.unwrapSingleStatements = false ∨ p.tree.captureOccurrences.Nodup

def Finds (r : Rewriter) (t : Tree) : Prop :=
  ∃ found, RuleStore.firstOn (Pass.matcher r.config) t 0 r.sides = some found

namespace Restates

theorem firstOn (h : r.Restates p u) (t : Tree) :
    RuleStore.firstOn (Pass.matcher r.config) t 0 r.sides =
      ((Pass.matcher r.config).treeMatch true p.tree t []).map fun b => (0, u, b) := by
  rw [h.sides, RuleStore.firstOn]
  cases (Pass.matcher r.config).treeMatch true p.tree t [] <;> rfl

theorem finds_iff (h : r.Restates p u) :
    r.Finds t ↔ ∃ b, (Pass.matcher r.config).treeMatch true p.tree t [] = some b := by
  rw [Finds, h.firstOn]
  cases (Pass.matcher r.config).treeMatch true p.tree t [] <;> simp

end Restates

theorem not_finds (h : r.Normal t) : ¬ r.Finds t := by
  rintro ⟨found, hfound⟩
  rw [h.firstOn] at hfound
  cases hfound

theorem Normal.of_not_finds (hbelow : ∀ c, some c ∈ t.slots → r.Normal c) (h : ¬ r.Finds t) :
    r.Normal t := by
  obtain ⟨line, label, slots⟩ := t
  refine .node hbelow (Option.eq_none_iff_forall_not_mem.mpr fun found hfound => h ⟨found, hfound⟩)

namespace Restates

/-- Where the rule matches depends on the form of the tree. -/
theorem finds_of_same_form (h : r.Restates p u) (ht : t.hasNan = false)
    (hsame : ((Pass.matcher r.config).form t).same ((Pass.matcher r.config).form v) = true)
    (hfinds : r.Finds t) : r.Finds v := by
  obtain ⟨b, hb⟩ := h.finds_iff.mp hfinds
  exact h.finds_iff.mpr (Matcher.exists_treeMatch_of_same_form h.once ht hsame hb)

/-- If no node below the first tree is matched, then none below a tree of the same form is. -/
theorem normal_of_same_form (h : r.Restates p u) (hv : v.hasNan = false) (ht : r.Normal t)
    (hsame : ((Pass.matcher r.config).form t).same ((Pass.matcher r.config).form v) = true) :
    r.Normal v := by
  induction v using Tree.induct generalizing t with
  | node line label slots ih =>
      have hslots := Tree.hasNanIn_eq_false.mp (Tree.hasNanIn_slots hv)
      refine .of_not_finds (fun c hc => ?_) fun hfinds =>
        not_finds ht (h.finds_of_same_form hv (Tree.same_symm hsame) hfinds)
      rcases (Pass.matcher r.config).seenTree_or (.node line label slots) with
        hseen | ⟨line', only, heq, hseen⟩
      · obtain ⟨d, hd, hsame⟩ := Matcher.exists_slot_of_same_form hseen hsame hc
        have hnormal : r.Normal d :=
          (Normal.hereditary r).below (Matcher.seenTree_forall (Normal.hereditary r) ht) d hd
        exact ih c hc (hslots c hc) hnormal hsame
      · cases heq
        obtain rfl : c = only := by simpa [Tree.slots] using hc
        rw [Matcher.form_of_same_seenTree hseen] at hsame
        exact ih c hc (hslots c hc) ht hsame

/-- The same for the nodes below two roots. -/
theorem normal_below_of_same_form (h : r.Restates p u) (hv : v.hasNan = false)
    (hseen : (Pass.matcher r.config).seenTree v = v)
    (hbelow : ∀ c, some c ∈ t.slots → r.Normal c)
    (hsame : ((Pass.matcher r.config).form t).same ((Pass.matcher r.config).form v) = true) :
    ∀ c, some c ∈ v.slots → r.Normal c := by
  intro c hc
  obtain ⟨d, hd, hsame⟩ := Matcher.exists_slot_of_same_form hseen hsame hc
  refine h.normal_of_same_form (Tree.hasNanIn_eq_false.mp (Tree.hasNanIn_slots hv) c hc) ?_ hsame
  rcases (Pass.matcher r.config).seenTree_or t with hseen | ⟨line, only, rfl, hseen⟩
  · exact hbelow d (hseen ▸ hd)
  · rw [hseen] at hd
    exact (Normal.hereditary r).below
      (Matcher.seenTree_forall (Normal.hereditary r) (hbelow only List.mem_cons_self)) d hd

/-- A tree that is matched though no node below it is, is no transparent list. -/
theorem seenTree_of_finds (h : r.Restates p u) (ht : t.hasNan = false)
    (hbelow : ∀ c, some c ∈ t.slots → r.Normal c) (hfinds : r.Finds t) :
    (Pass.matcher r.config).seenTree t = t := by
  rcases (Pass.matcher r.config).seenTree_or t with hseen | ⟨line, only, rfl, hseen⟩
  · exact hseen
  · refine absurd (h.finds_of_same_form ht ?_ hfinds) (not_finds (hbelow only List.mem_cons_self))
    rw [Matcher.form_of_same_seenTree hseen.symm]
    exact Matcher.same_form_self ht

/-- What the rule does where it matches above nodes that it does not match: the instance is again
such a tree, has the same form and stands at the same line. -/
theorem exists_instance (h : r.Restates p u) (ht : t.hasNan = false)
    (hbelow : ∀ c, some c ∈ t.slots → r.Normal c) (hfinds : r.Finds t) :
    ∃ b v, RuleStore.firstOn (Pass.matcher r.config) t 0 r.sides = some (0, u, b) ∧
      u.tree.instantiate b t.line = .ok v ∧ v.line = t.line ∧ v.hasNan = false ∧
      (∀ c, some c ∈ v.slots → r.Normal c) ∧ r.Finds v ∧
      ((Pass.matcher r.config).form v).same ((Pass.matcher r.config).form t) = true := by
  obtain ⟨b, hb⟩ := h.finds_iff.mp hfinds
  obtain ⟨v, hv, hline, hseen, hsame⟩ := Matcher.exists_own_instance h.shaped h.bare ht
    (h.seenTree_of_finds ht hbelow hfinds) hb
  have hnan : v.hasNan = false := by
    rw [← Matcher.hasNan_form]
    exact Tree.hasNan_of_same hsame
  have hsame' := Tree.same_symm hsame
  exact ⟨b, v, by rw [h.firstOn, hb]; rfl, by rw [h.template, hv], hline, hnan,
    h.normal_below_of_same_form hnan hseen hbelow hsame', h.finds_of_same_form ht hsame' hfinds, hsame⟩

end Restates

end Rewriter

/-! ### Passes -/

namespace Pass

variable {p q : Pass} {o : Outside} {n : Placement} {apps growth : Nat} {rule : Pattern}
  {u : Template}

/-- A child in normal form is visited without a rewrite. -/
theorem exists_visited_child {k : Layer} {c : Placement}
    (hp : p.At o (k.fill c) (some c :: k.after) apps growth) (hnormal : o.rewriter.Normal c.tree)
    (hdepth : Rewriter.innerGrowth apps growth < o.rewriter.config.maxDepth) :
    ∃ j q, p.run j = .going q ∧ q.rules = p.rules ∧ q.At o (k.fill c) k.after apps growth := by
  have hsim := visitChild_simulates hp fun o' q c' hq hr =>
    hr ▸ rewrite_simulates c.tree.size hq
  rw [Rewriter.visitChild, if_neg (Nat.not_le_of_lt hdepth),
    Rewriter.rewrite_of_normal hnormal (.inl (Nat.zero_lt_of_lt hdepth)) (Nat.le_refl _)
      (Rewriter.innerGrowth apps growth) p.summary.rewrites p.summary.nodesVisited] at hsim
  obtain ⟨j, q, hj, m, -, hq, hsummary⟩ := hsim
  have hquiet := quiet_of_run hj (by rw [hsummary])
  -- the arena is the same, and it holds one placement only
  have hm : p.arena.Holds (k.fill m) := hquiet.arena ▸ hq.holds
  rw [Arena.Holds.unique _ _ hm hp.holds rfl] at hq
  exact ⟨j, q, hj, hquiet.rules, hq⟩

/-- So are the children in front of others. -/
theorem exists_visited {id : NodeId} {line : Nat} {label : Label}
    (done before rest : List (Option Placement))
    (hnormal : ∀ c, some c ∈ before → o.rewriter.Normal c.tree)
    (hdepth : Rewriter.innerGrowth apps growth < o.rewriter.config.maxDepth)
    (hp : p.At o (.node id line label (done ++ (before ++ rest))) (before ++ rest) apps growth) :
    ∃ j q, p.run j = .going q ∧ q.rules = p.rules ∧
      q.At o (.node id line label (done ++ (before ++ rest))) rest apps growth := by
  induction before generalizing p done with
  | nil => exact ⟨0, p, rfl, rfl, hp⟩
  | cons x before ih =>
      have hassoc : done ++ (x :: before ++ rest) = (done ++ [x]) ++ (before ++ rest) := by simp
      have hrest := fun c hc => hnormal c (List.mem_cons_of_mem x hc)
      cases x with
      | none =>
          rw [hassoc] at hp ⊢
          exact ih (done ++ [none]) hrest ⟨hp.stack, hp.owns, hp.rewriter, hp.root, hp.root_mem⟩
      | some c =>
          have hchild : p.At o (Layer.fill ⟨id, line, label, done, before ++ rest⟩ c)
              (some c :: (before ++ rest)) apps growth := hp
          obtain ⟨j, x, hj, hrules, hx⟩ :=
            exists_visited_child hchild (hnormal c List.mem_cons_self) hdepth
          have hnext : x.At o (.node id line label ((done ++ [some c]) ++ (before ++ rest)))
              (before ++ rest) apps growth := hassoc ▸ hx
          obtain ⟨k, q, hk, hrules', hq⟩ := ih (done ++ [some c]) hrest hnext
          exact ⟨j + k, q, by rw [run_add hj, hk], hrules'.trans hrules, hassoc ▸ hq⟩

theorem exists_visited_below (hp : p.At o n n.slots apps growth)
    (hbelow : ∀ c, some c ∈ n.tree.slots → o.rewriter.Normal c)
    (hdepth : Rewriter.innerGrowth apps growth < o.rewriter.config.maxDepth) :
    ∃ j q, p.run j = .going q ∧ q.rules = p.rules ∧ q.At o n [] apps growth := by
  obtain ⟨id, line, label, slots⟩ := n
  have hall : p.At o (.node id line label ([] ++ (slots ++ []))) (slots ++ []) apps growth := by
    simpa only [List.append_nil, List.nil_append, Placement.slots] using hp
  simpa only [List.append_nil, List.nil_append] using
    exists_visited [] slots [] (fun c hc => hbelow c.tree (tree_mem_treesIn hc)) hdepth hall

/-- What is left where the pass stops: the unit has kept its form, and the rule was applied so many
times. -/
structure Kept (o : Outside) (n : Placement) (hits : Nat) (q : Pass) : Prop where
  unit : ∃ m : Placement, q.arena.Owns (m.entries ++ o.entries) ∧ m.root = n.root ∧
    ((matcher o.rewriter.config).form m.tree).same ((matcher o.rewriter.config).form n.tree) = true
  root : q.arena.root = some o.root
  hits : q.rules.hitsOf 0 = hits

/-- The pass stops because the rule still matches at a line. -/
def Cycles (o : Outside) (n : Placement) (line count : Nat) (p : Pass) : Prop :=
  ∃ k q, p.run k = .stopped
      (.ruleCycle 0 ⟨o.rewriter.origin, line⟩ o.rewriter.config.maxRewritesPerNode) q ∧
    q.Kept o n (p.rules.hitsOf 0 + count)

theorem Cycles.after {k line count : Nat} (h : q.Cycles o n line count) (hk : p.run k = .going q)
    (hrules : q.rules = p.rules) : p.Cycles o n line count := by
  obtain ⟨j, x, hj, hx⟩ := h
  exact ⟨k + j, x, by rw [run_add hk, hj], hrules ▸ hx⟩

/-- An application of the rule gives a position like the one before. -/
theorem Kept.of_applied {m : Placement} {es : List Entry} {f : Frame} {below : List Frame}
    {hits : Nat} {x : Pass} (h : q.Kept o m (x.rules.hitsOf 0 + hits))
    (happlied : p.Applied x f below 0 n m es) (hsize : 0 < p.rules.size)
    (hsame : ((matcher o.rewriter.config).form m.tree).same
      ((matcher o.rewriter.config).form n.tree) = true) :
    q.Kept o n (p.rules.hitsOf 0 + (hits + 1)) where
  unit := by
    obtain ⟨k, hk, hroot, hform⟩ := h.unit
    exact ⟨k, hk, hroot.trans happlied.root_eq, Tree.same_trans _ _ _ hform hsame⟩
  root := h.root
  hits := by
    rw [h.hits, happlied.rules, RuleStore.hitsOf_recordHit hsize, if_pos rfl]
    omega

/-- Where the rule matches above nodes that it does not match, it is applied up to the limit. -/
theorem cycles_at (h : o.rewriter.Restates rule u) (hdepth : 2 ≤ o.rewriter.config.maxDepth)
    (hp : p.At o n n.slots apps 0) (hnan : n.tree.hasNan = false)
    (hbelow : ∀ c, some c ∈ n.tree.slots → o.rewriter.Normal c) (hfinds : o.rewriter.Finds n.tree)
    {count : Nat} (hcount : apps + count = o.rewriter.config.maxRewritesPerNode) :
    p.Cycles o n n.line count := by
  induction count generalizing p n apps with
  | zero =>
      obtain ⟨b, v, hfirst, -⟩ := h.exists_instance hnan hbelow hfinds
      obtain ⟨j, q, hj, hrules, hq⟩ := exists_visited_below hp hbelow (Rewriter.innerGrowth_lt hdepth apps)
      rw [← hq.rewriter] at hfirst hcount
      have hstep := step_cycle hq.holds hq.stack rfl rfl hfirst hcount
      refine Cycles.after ⟨1, q, ?_, ⟨n, hq.owns, rfl, Matcher.same_form_self hnan⟩, hq.root, rfl⟩ hj
        hrules
      rw [run, hstep, ← hq.rewriter]
      rfl
  | succ count ih =>
      obtain ⟨b, v, hfirst, hv, hline, hvnan, hvbelow, hvfinds, hsame⟩ :=
        h.exists_instance hnan hbelow hfinds
      obtain ⟨j, q, hj, hrules, hq⟩ := exists_visited_below hp hbelow (Rewriter.innerGrowth_lt hdepth apps)
      have hsides : q.rules.sides = [(rule, u)] := (congrArg Rewriter.sides hq.rewriter).trans h.sides
      have hsize : 0 < q.rules.size := by
        rw [← RuleStore.length_sides, hsides]
        exact Nat.zero_lt_one
      have happs : apps ≠ q.config.maxRewritesPerNode := by
        have hconfig : q.config = o.rewriter.config := congrArg Rewriter.config hq.rewriter
        rw [hconfig]
        omega
      rw [← hq.rewriter] at hfirst
      have happly := step_apply hq.owns hq.root_notMem hq.stack rfl rfl hfirst happs
      rw [tree_line] at hv hline
      rw [hv] at happly
      obtain ⟨m, x, hx, rfl, happlied⟩ := happly
      obtain ⟨k, y, hk, hy⟩ := ih (hq.applied happlied) hvnan hvbelow hvfinds (by omega)
      refine Cycles.after ⟨1 + k, y, ?_, hy.of_applied happlied hsize hsame⟩ hj hrules
      rw [run_add (run_one hx), hk, ← tree_line, hline]

/-- A cycle below a child is one below its parent. -/
theorem Cycles.ascend {k : Layer} {c : Placement} {line count : Nat}
    (h : p.Cycles (o.inner k c.root apps growth) c line count)
    (hnan : (k.fill c).tree.hasNan = false) : p.Cycles o (k.fill c) line count := by
  obtain ⟨j, q, hj, ⟨⟨m, hm, hroot, hform⟩, hunit, hhits⟩⟩ := h
  rw [← hroot] at hm
  refine ⟨j, q, hj, ⟨⟨k.fill m, hm.perm (perm_inner k m o.entries).symm, rfl, ?_⟩, hunit, hhits⟩⟩
  have htree (x : Placement) : (k.fill x).tree =
      .node k.line k.label (treesIn k.before ++ some x.tree :: treesIn k.after) := by
    simp [Layer.fill, tree, treesIn]
  rw [htree] at hnan
  rw [htree, htree]
  exact Matcher.same_form_exchange hnan hform

end Pass

namespace Rewriter

variable {r : Rewriter}

/-- Of child slots with a tree that is not in normal form, the first. -/
theorem exists_first_of_not_normal {slots : List (Option Placement)}
    (h : ¬ ∀ c, some c ∈ slots → r.Normal c.tree) :
    ∃ before c after, slots = before ++ some c :: after ∧
      (∀ d, some d ∈ before → r.Normal d.tree) ∧ ¬ r.Normal c.tree := by
  induction slots with
  | nil => simp at h
  | cons o rest ih =>
      by_cases hfirst : ∃ c, o = some c ∧ ¬ r.Normal c.tree
      · obtain ⟨c, rfl, hc⟩ := hfirst
        exact ⟨[], c, rest, rfl, by simp, hc⟩
      · have ho : ∀ c, o = some c → r.Normal c.tree := by
          simpa using hfirst
        obtain ⟨before, c, after, rfl, hbefore, hc⟩ := ih fun hrest => h fun c hmem => by
          rcases List.mem_cons.mp hmem with heq | hmem
          · exact ho c heq.symm
          · exact hrest c hmem
        refine ⟨o :: before, c, after, rfl, fun d hd => ?_, hc⟩
        rcases List.mem_cons.mp hd with heq | hd
        · exact ho d heq.symm
        · exact hbefore d hd

/-- No subtree of a normal form is matched. -/
theorem not_finds_of_mem {slots : List (Option Placement)}
    (h : ∀ c, some c ∈ slots → r.Normal c.tree) : ∀ y ∈ postorderIn slots, ¬ r.Finds y.tree := by
  intro y hy
  obtain ⟨c, hc, hy⟩ := mem_postorderIn.mp hy
  exact not_finds (forall_postorder (Normal.hereditary r) (h c hc) y hy)

end Rewriter

namespace Pass

/-- The pass stops at the first node in postorder at which the rule matches. -/
theorem exists_cycles {p : Pass} {o : Outside} {n : Placement} {rule : Pattern} {u : Template}
    (h : o.rewriter.Restates rule u) (hdepth : 2 ≤ o.rewriter.config.maxDepth)
    (hp : p.At o n n.slots 0 0) (hnan : n.tree.hasNan = false) (hmatched : ¬ o.rewriter.Normal n.tree) :
    ∃ x, First o.rewriter.Finds n x ∧
      p.Cycles o n x.line o.rewriter.config.maxRewritesPerNode := by
  induction n using induct generalizing p o with
  | node id line label slots ih =>
      by_cases hbelow : ∀ c, some c ∈ slots → o.rewriter.Normal c.tree
      · have hchildren : ∀ t, some t ∈ treesIn slots → o.rewriter.Normal t := by
          intro t ht
          obtain ⟨c, hc, rfl⟩ := exists_of_mem_treesIn ht
          exact hbelow c hc
        have hfinds : o.rewriter.Finds (.node line label (treesIn slots)) :=
          Classical.not_not.mp fun hnot => hmatched (.of_not_finds hchildren hnot)
        exact ⟨_, .root (Rewriter.not_finds_of_mem hbelow) hfinds,
          cycles_at h hdepth hp hnan hchildren hfinds (Nat.zero_add _)⟩
      · obtain ⟨before, c, after, rfl, hbefore, hc⟩ := Rewriter.exists_first_of_not_normal hbelow
        have hmem : some c ∈ before ++ some c :: after := by simp
        obtain ⟨j, q, hj, hrules, hq⟩ :=
          exists_visited [] before (some c :: after) hbefore (Rewriter.innerGrowth_lt hdepth 0) hp
        have hat : q.At o (Layer.fill ⟨id, line, label, before, after⟩ c) (some c :: after) 0 0 := hq
        have hconfig : q.config = o.rewriter.config := congrArg Rewriter.config hq.rewriter
        obtain ⟨x, hx, hsummary, hinner⟩ := hat.descend (by
          rw [hconfig]
          exact Nat.not_le_of_lt (Rewriter.innerGrowth_lt hdepth 0))
        have hcnan := Tree.hasNanIn_eq_false.mp (Tree.hasNanIn_slots hnan) c.tree
          (tree_mem_treesIn hmem)
        obtain ⟨y, hfirst, hcycles⟩ :=
          ih c hmem (o := o.inner ⟨id, line, label, before, after⟩ c.root 0 0) h hdepth hinner hcnan hc
        have hquiet := quiet_of_run (run_one hx) (by rw [hsummary])
        refine ⟨y, hfirst.child ⟨id, line, label, before, after⟩ (Rewriter.not_finds_of_mem hbefore), ?_⟩
        exact ((hcycles.ascend hnan).after (run_one hx) hquiet.rules).after hj hrules

end Pass

namespace Engine

variable {e : Engine} {a : Arena} {root id : NodeId} {r : SnippetReader} {text : String}
  {rule : Rule} {t : Tree} {b : Bindings}

theorem restates (hrules : e.rules.rules = [rule]) (hsides : r.rule text text = .ok rule.sides)
    (honce : e.config.unwrapSingleStatements = false ∨ rule.pattern.tree.captureOccurrences.Nodup)
    (origin : String) : (e.rewriter origin).Restates rule.pattern rule.template := by
  obtain ⟨htemplate, hshape, hbare⟩ := SnippetReader.eq_of_rule hsides
  refine ⟨?_, htemplate, hshape, hbare, honce⟩
  simp only [rewriter, RuleStore.sides, hrules]
  rfl

theorem run_of_finds {rewriter : Rewriter} {l : Placement}
    (h : rewriter.Restates rule.pattern rule.template) (hl : a.Holds l)
    (hfinds : rewriter.Finds l.tree) :
    ∃ b, (Pass.matcher rewriter.config).run rule.pattern a l.root = .ok (some b) := by
  obtain ⟨s, hs⟩ := h.finds_iff.mp hfinds
  obtain ⟨b, hb, -⟩ := Matcher.run_of_some hl hs
  exact ⟨b, hb⟩

theorem run_of_not_finds {rewriter : Rewriter} {l : Placement}
    (h : rewriter.Restates rule.pattern rule.template) (hl : a.Holds l)
    (hnot : ¬ rewriter.Finds l.tree) :
    (Pass.matcher rewriter.config).run rule.pattern a l.root = .ok none := by
  refine Matcher.run_of_none hl (Option.eq_none_iff_forall_not_mem.mpr fun s hs => ?_)
  exact hnot (h.finds_iff.mpr ⟨s, hs⟩)

/-- A unit with a node at which the rule matches is not in normal form. -/
theorem not_normal_of_run {rewriter : Rewriter} {l : Placement}
    (h : rewriter.Restates rule.pattern rule.template) (ha : a.Owns l.entries)
    (hlive : a.contains id)
    (hmatch : (Pass.matcher rewriter.config).run rule.pattern a id = .ok (some b)) :
    ¬ rewriter.Normal l.tree := by
  intro hnormal
  obtain ⟨m, rfl, hm, hmnormal⟩ := exists_normal hnormal ha.holds_all (ha.covers id hlive)
  rw [run_of_not_finds h hm (Rewriter.not_finds hmnormal)] at hmatch
  cases hmatch

/-- A rule whose sides are the same text ends in a cycle. Let it be the only rule of an engine that
admits two rewritten positions inside each other; where lists with one statement are transparent, let
no capture occur twice in it. If it matches anywhere in a unit without NaN, then every pass with
enough steps stops with the error that it still matches, at the line of the first node in postorder
at which it matched. Till then it is applied as often as the limit admits, and the unit keeps its
collapsed form, or its tree where no list is transparent. -/
theorem ruleCycle_of_equal_sides (hrules : e.rules.rules = [rule])
    (hsides : r.rule text text = .ok rule.sides)
    (honce : e.config.unwrapSingleStatements = false ∨ rule.pattern.tree.captureOccurrences.Nodup)
    (hdepth : 2 ≤ e.config.maxDepth) (ha : a.TreeShaped root) (ht : a.tree root = .ok t)
    (hnan : t.hasNan = false) (hlive : a.contains id)
    (hmatch : (Pass.matcher e.config).run rule.pattern a id = .ok (some b)) :
    ∃ before first after line n, a.postorder root = .ok (before ++ first :: after) ∧
      (∀ x ∈ before, (Pass.matcher e.config).run rule.pattern a x = .ok none) ∧
      (∃ b, (Pass.matcher e.config).run rule.pattern a first = .ok (some b)) ∧
      a.line first = .ok line ∧
      ∀ steps, n ≤ steps →
        (e.processWithin steps a).result =
            .error (.ruleCycle 0 ⟨a.origin, line⟩ e.config.maxRewritesPerNode) ∧
          (e.processWithin steps a).engine.rules.hitsOf 0 =
            rule.hits + e.config.maxRewritesPerNode ∧
          (e.processWithin steps a).arena.root = some root ∧
          ∃ u, (e.processWithin steps a).arena.tree root = .ok u ∧
            u.collapse.same t.collapse = true ∧
            (e.config.unwrapSingleStatements = false → u.same t = true) := by
  obtain ⟨l, rfl, howns⟩ := ha.exists_owns
  have hl : a.Holds l := howns.holds_all
  cases hl.tree_eq.symm.trans ht
  have h := restates hrules hsides honce a.origin
  obtain ⟨x, ⟨before, after, horder, hbefore, hx⟩, k, q, hk, ⟨⟨m, hm, hroot, hform⟩, hunit, hhits⟩⟩ :=
    Pass.exists_cycles h hdepth (entered_at howns ha.root_eq) hnan (not_normal_of_run h howns hlive hmatch)
  have hmem : ∀ y ∈ before ++ x :: after, a.Holds y := fun y hy =>
    hl.of_mem_postorder (horder ▸ hy)
  refine ⟨before.map Placement.root, x.root, after.map Placement.root, x.line, k, ?_, ?_,
    run_of_finds h (hmem x (by simp)) hx, (hmem x (by simp)).line_eq, fun steps hle => ?_⟩
  · rw [hl.postorder_eq, horder, List.map_append, List.map_cons]
  · intro id hid
    obtain ⟨y, hy, rfl⟩ := List.mem_map.mp hid
    exact run_of_not_finds h (hmem y (List.mem_append_left _ hy)) (hbefore y hy)
  · have hsize : e.rules.size ≠ 0 := by simp [RuleStore.size, hrules]
    have hbegin : e.rules.hitsOf 0 = rule.hits := by simp [RuleStore.hitsOf, RuleStore.get?, hrules]
    have hleft : q.arena.tree l.root = .ok m.tree := hroot ▸ hm.holds.tree_eq
    rw [processWithin_eq hl ha.root_eq hsize, Pass.run_of_le (by simp [hk]) hle, hk]
    refine ⟨rfl, hhits.trans (congrArg (· + _) hbegin), hunit, m.tree, hleft,
      Matcher.same_collapse_of_form hform, fun hplain => ?_⟩
    rwa [Matcher.form_of_plain hplain, Matcher.form_of_plain hplain] at hform

/-- An engine whose only rule leaves every addition of zero as it is. -/
def keepZero (p : Pattern) (u : Template) : Engine :=
  { Engine.new defaultSigil {} with rules := ⟨[⟨p, u, 0⟩]⟩ }

/-- The addition of zero stands at line 1, and the limit is 10. -/
theorem ruleCycle_of_equal_sides_sum :
    ∃ p u n, (SnippetReader.ofSigil defaultSigil).rule "$a + 0" "$a + 0" = .ok (p, u) ∧
      ∀ steps, n ≤ steps →
        ((keepZero p u).processWithin steps (.ofTree "unit" sumTree)).result =
            .error (.ruleCycle 0 ⟨"unit", 1⟩ 10) ∧
          ((keepZero p u).processWithin steps (.ofTree "unit" sumTree)).engine.rules.hitsOf 0 = 10 := by
  obtain ⟨root, hunit, htree⟩ := Arena.ofTree_treeShaped "unit" (t := sumTree) (by decide)
  have hcompiles : (match (SnippetReader.ofSigil defaultSigil).rule "$a + 0" "$a + 0" with
      | .ok (p, _) => some (decide p.tree.captureOccurrences.Nodup,
          ((Pass.matcher {}).run p (.ofTree "unit" sumTree) 2).toOption.join.isSome)
      | .error _ => none) = some (true, true) := by
    decide +kernel
  have hlines : ((Arena.ofTree "unit" sumTree).root.bind fun root =>
      ((Arena.ofTree "unit" sumTree).postorder root).toOption.map fun ids =>
        ids.all fun x => ((Arena.ofTree "unit" sumTree).line x).toOption == some 1) = some true := by
    decide +kernel
  split at hcompiles
  · rename_i p u hrule
    simp only [Option.some.injEq, Prod.mk.injEq, decide_eq_true_eq] at hcompiles
    obtain ⟨honce, hmatch⟩ := hcompiles
    obtain ⟨b, hb⟩ := Option.isSome_iff_exists.mp hmatch
    have hrun : (Pass.matcher (keepZero p u).config).run p (.ofTree "unit" sumTree) 2 =
        .ok (some b) := by
      show (Pass.matcher {}).run p (.ofTree "unit" sumTree) 2 = .ok (some b)
      cases hfound : (Pass.matcher {}).run p (.ofTree "unit" sumTree) 2 with
      | error f =>
          rw [hfound] at hb
          cases hb
      | ok found =>
          rw [hfound] at hb
          exact congrArg Except.ok hb
    have hrules : (keepZero p u).rules.rules = [⟨p, u, 0⟩] := rfl
    obtain ⟨before, first, after, line, n, horder, -, -, hline, hends⟩ :=
      ruleCycle_of_equal_sides hrules hrule (.inr honce) (show 2 ≤ 2048 by decide) hunit htree
        (by decide) (by decide) hrun
    rw [hunit.root_eq, Option.bind_some, horder] at hlines
    have hfirst := List.all_eq_true.mp (Option.some.inj hlines) first (by simp)
    rw [hline] at hfirst
    obtain rfl : line = 1 := by simpa [Except.toOption] using hfirst
    exact ⟨p, u, n, hrule, fun steps hle => ⟨(hends steps hle).1, (hends steps hle).2.1⟩⟩
  · cases hcompiles

end Engine

end SnippetRewrite
