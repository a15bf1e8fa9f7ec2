import SnippetRewrite.Compile.Compiler
import SnippetRewrite.Proofs.Rewrite.Limit
import SnippetRewrite.Proofs.Rewrite.Settling
import SnippetRewrite.Proofs.Rule.CatalogueTrees

/-!
Passes with the rules of the catalogue. In the catalogue only one template is overlapped by patterns:
a compound assignment may be a step by one. So a position is rewritten at most twice, and a pass with
the catalogue comes to its end without an error on every unit.
-/

namespace SnippetRewrite

open Placement

namespace Engine

variable {e : Engine} {a : Arena} {l : Placement} {root : NodeId}

/-! ### Passes with rules that settle -/

/-- A pass whose rules settle leaves the last position after a number of steps. -/
theorem exists_last_step {k : Nat} (ha : a.Owns l.entries) (hroot : a.root = some l.root)
    (h : (e.rewriter a.origin).Settles k) :
    ∃ n q, (e.entered a l).run n = .going q ∧ q.stack = [] ∧
      q.summary.rewrites ≤ (k + 1) * l.tree.size := by
  obtain ⟨result, ⟨bound, hresult⟩, hcount⟩ := Rewriter.rewrite_ends h l.tree ⟨0, 1⟩
  have hsim := rewriteUnit_simulates (e := e) ha hroot bound
  have hunit : (e.rewriter a.origin).rewriteUnit bound l.tree = .ok result :=
    hresult bound (Nat.le_refl bound)
  rw [hunit] at hsim
  obtain ⟨n, q, hrun, m, -, -, hleft, hsummary⟩ := hsim
  refine ⟨n, q, hrun, hleft.stack, ?_⟩
  rw [hsummary]
  exact Nat.le_trans hcount (by simp)

/-- A pass whose rules settle ends well after a number of steps, with a number of rewrites that is
linear in the size of the unit, and rewrites no position more often than the rules feed each
other. -/
theorem processWithin_of_settles {k : Nat} (ha : a.Owns l.entries) (hroot : a.root = some l.root)
    (hrules : e.rules.size ≠ 0) (h : (e.rewriter a.origin).Settles k) :
    ∃ n s, (∀ steps, (e.processWithin steps a).result =
        if steps < n then .error .unfinished else .ok s) ∧
      s.rewrites ≤ (k + 1) * l.tree.size ∧
      ∀ p, e.PassState a l.root p → ∀ f ∈ p.stack, f.applications ≤ k + 1 := by
  obtain ⟨n, q, hrun, hstack, hcount⟩ := exists_last_step ha hroot h
  -- under the limit that the rules need the pass comes to its end as well
  have hlimited : ((e.withLimit (k + 1)).rewriter a.origin).Settles k :=
    ⟨h.compiled, h.closed, h.settles, h.depth, Nat.lt_succ_self k⟩
  obtain ⟨n', q', hrun', hstack', -⟩ := exists_last_step ha hroot hlimited
  have hend : ((e.withLimit (k + 1)).entered a l).run (n' + 1) = .finished q' :=
    Pass.run_of_left hrun' hstack' (Nat.lt_succ_self n')
  refine ⟨n + 1, q.summary, fun steps => ?_, hcount,
    fun p hp => applications_le_of_limit h.limit ha.holds_all hend hp⟩
  rw [processWithin_eq ha.holds_all hroot hrules]
  by_cases hsteps : steps < n + 1
  · obtain ⟨x, hx⟩ := Pass.going_of_le hrun (Nat.le_of_lt_succ hsteps)
    rw [hx, if_pos hsteps]
    rfl
  · rw [Pass.run_of_left hrun hstack (Nat.lt_of_succ_le (Nat.le_of_not_lt hsteps)), if_neg hsteps]
    rfl

/-! ### The catalogue -/

/-- Engines that hold the rules of the catalogue and no others, whatever passes they have made. -/
inductive OfCatalogue : Engine → Prop
  | new (config : Config) (hsigil : config.captureSigil = defaultSigil) :
    OfCatalogue ((Engine.new defaultSigil config).addCatalogue).2
  | process {e : Engine} (h : OfCatalogue e) (steps : Nat) (a : Arena) :
    OfCatalogue (e.processWithin steps a).engine

theorem addRules_congr {e e' : Engine} (hsnippets : e.snippets = e'.snippets)
    (hrules : e.rules = e'.rules) (specs : List RuleSpec) :
    (e.addRules specs).2.rules = (e'.addRules specs).2.rules := by
  induction specs generalizing e e' with
  | nil => exact hrules
  | cons spec rest ih =>
      rw [addRules_cons, addRules_cons, addRule, addRule, hsnippets]
      cases e'.snippets.rule spec.source spec.replacement with
      | error x => exact hrules
      | ok sides =>
          refine ih hsnippets ?_
          simp only [hrules]

/-- The catalogue is registered like a batch of rules. -/
theorem engine_addCatalogue (e : Engine) :
    e.addCatalogue.2 = (e.addRules (Catalogue.all.map fun r => ⟨r.source, r.replacement⟩)).2 := by
  unfold addCatalogue
  dsimp only
  split <;> rename_i heq <;> rw [heq]

theorem settings_of_addRule {e e' : Engine} {spec : RuleSpec} {id : RuleId}
    (h : e.addRule spec = .ok (id, e')) :
    e'.config = e.config ∧ e'.readerSigil = e.readerSigil := by
  obtain ⟨side, -, h⟩ := bind_eq_ok.mp h
  cases h
  exact ⟨rfl, rfl⟩

theorem config_addRules (e : Engine) (specs : List RuleSpec) :
    (e.addRules specs).2.config = e.config :=
  addRules_keeps (P := fun x => x.config = e.config)
    (fun hx hadd => (settings_of_addRule hadd).1.trans hx) rfl specs

theorem config_addCatalogue (e : Engine) : e.addCatalogue.2.config = e.config := by
  rw [engine_addCatalogue, config_addRules]

theorem reached_addCatalogue {e : Engine} (h : e.Reached) : e.addCatalogue.2.Reached := by
  rw [engine_addCatalogue]
  exact h.addRules _

theorem OfCatalogue.reached (h : e.OfCatalogue) : e.Reached := by
  induction h with
  | new config _ => exact reached_addCatalogue (.new defaultSigil config)
  | process _ steps a ih => exact .process ih steps a

def catalogueSides : List (Pattern × Template) :=
  ((Engine.new defaultSigil {}).addCatalogue).2.rules.sides

theorem OfCatalogue.sides (h : e.OfCatalogue) : e.rules.sides = catalogueSides := by
  induction h with
  | new config hsigil =>
      have hsnippets : (Engine.new defaultSigil config).snippets =
          (Engine.new defaultSigil {}).snippets := by
        unfold snippets Engine.new
        rw [hsigil]
      rw [catalogueSides, engine_addCatalogue, engine_addCatalogue, addRules_congr hsnippets rfl]
  | process _ steps a ih => rw [sides_processWithin, ih]

/-- A snippet that is read as one statement. -/
def snippetOf (source : String) (t : Tree) : Snippet :=
  let marked := (Arena.ofTree snippetOrigin (Catalogue.statements [t])).toSnippet defaultSigil
  { source
    arena := marked.arena
    tree := (Catalogue.statements [t]).unwrapSingle.markCaptures defaultSigil
    captures := marked.captures }

/-- The sides of a rule whose texts are read as two statements. -/
def sidesOf (r : CatalogueRule) (t : Tree × Tree) : Pattern × Template :=
  (⟨snippetOf r.source t.1⟩, ⟨snippetOf r.replacement t.2⟩)

/-- Whether two statements are sides of a rule: the pattern holds something and binds each capture of
the template. -/
def areSides (t : Tree × Tree) : Bool :=
  !(match (snippetOf "" t.1).tree with
    | .node _ (.list _) [] => true
    | _ => false) &&
    ((snippetOf "" t.2).captures.find? fun name => !(snippetOf "" t.1).captures.contains name).isNone

theorem rule_of_read {r : CatalogueRule} {t : Tree × Tree}
    (hread : Catalogue.readRule r =
      (.ok (Catalogue.statements [t.1]), .ok (Catalogue.statements [t.2])))
    (h : areSides t = true) :
    (SnippetReader.ofSigil defaultSigil).rule r.source r.replacement = .ok (sidesOf r t) := by
  obtain ⟨hsource, hreplacement⟩ := Prod.mk.inj hread
  obtain ⟨hpattern, hbound⟩ := Bool.and_eq_true_iff.mp h
  have hsnippet {source : String} {t : Tree}
      (h : Catalogue.read source = .ok (Catalogue.statements [t])) :
      (SnippetReader.ofSigil defaultSigil).snippet source = .ok (snippetOf source t) := by
    rw [Catalogue.read] at h
    rw [SnippetReader.snippet, h]
    rfl
  have hholds : (SnippetReader.ofSigil defaultSigil).pattern r.source =
      .ok ⟨snippetOf r.source t.1⟩ := by
    refine bind_eq_ok.mpr ⟨_, hsnippet hsource, ?_⟩
    split
    · rename_i htree
      have htree : (snippetOf "" t.1).tree = _ := htree
      rw [htree] at hpattern
      cases hpattern
    · rfl
  have htemplate : (SnippetReader.ofSigil defaultSigil).template r.replacement =
      .ok ⟨snippetOf r.replacement t.2⟩ :=
    bind_eq_ok.mpr ⟨_, hsnippet hreplacement, rfl⟩
  have hnone : (snippetOf r.replacement t.2).captures.find?
      (fun name => !(snippetOf r.source t.1).captures.contains name) = none :=
    Option.isNone_iff_eq_none.mp hbound
  refine bind_eq_ok.mpr ⟨_, hholds, bind_eq_ok.mpr ⟨_, htemplate, ?_⟩⟩
  dsimp only
  rw [hnone]
  rfl

/-- Rules that compile are registered with their sides, in their order. -/
theorem sides_addRules {e : Engine} {specs : List RuleSpec} {sides : List (Pattern × Template)}
    (h : specs.map (fun spec => e.snippets.rule spec.source spec.replacement) = sides.map .ok) :
    (e.addRules specs).2.rules.sides = e.rules.sides ++ sides := by
  induction specs generalizing e sides with
  | nil =>
      cases sides with
      | nil => exact (List.append_nil _).symm
      | cons side rest => cases h
  | cons spec specs ih =>
      cases sides with
      | nil => cases h
      | cons side rest =>
          obtain ⟨hrule, hrest⟩ := List.cons.inj h
          have hrule : e.snippets.rule spec.source spec.replacement = .ok side := hrule
          rw [addRules_cons, addRule, hrule]
          refine (ih (e := { e with rules := e.rules.push side.1 side.2 }) hrest).trans ?_
          simp [RuleStore.sides, RuleStore.push, Rule.sides]

theorem rules_of_read {rules : List CatalogueRule} {trees : List (Tree × Tree)}
    (hread : rules.map Catalogue.readRule = trees.map fun t =>
      (.ok (Catalogue.statements [t.1]), .ok (Catalogue.statements [t.2])))
    (h : trees.all areSides = true) :
    rules.map (fun r => (SnippetReader.ofSigil defaultSigil).rule r.source r.replacement) =
      (List.zipWith sidesOf rules trees).map .ok := by
  induction rules generalizing trees with
  | nil => rfl
  | cons r rules ih =>
      cases trees with
      | nil => cases hread
      | cons t trees =>
          obtain ⟨hhere, hrest⟩ := List.cons.inj hread
          obtain ⟨ht, htrees⟩ := Bool.and_eq_true_iff.mp h
          exact congrArg₂ List.cons (rule_of_read hhere ht) (ih hrest htrees)

theorem areSides_trees : Catalogue.trees.all areSides = true := by
  decide +kernel

/-- The sides of the catalogue are known without reading a text. -/
theorem catalogueSides_eq : catalogueSides = List.zipWith sidesOf Catalogue.all Catalogue.trees := by
  have hrules : (Catalogue.all.map fun r => (⟨r.source, r.replacement⟩ : RuleSpec)).map
      (fun spec => (Engine.new defaultSigil {}).snippets.rule spec.source spec.replacement) =
        (List.zipWith sidesOf Catalogue.all Catalogue.trees).map .ok := by
    rw [List.map_map, ← rules_of_read Catalogue.read_all areSides_trees]
    rfl
  rw [catalogueSides, engine_addCatalogue, sides_addRules hrules]
  rfl

/-- A branch whose condition has a constant operand, as it is read from
`if (true && ready()) go();`. -/
def guardedCall : Tree :=
  let call (name : String) : Tree := .fixed .call [some (.name name 1), some (.list .argList [] 1)] 1
  .list .stmtList
    [.fixed .ifElse
      [some (.fixed (.binary .boolAnd) [some (.literal (.bool true) 1), some (call "ready")] 1),
        some (call "go"), none] 1] 1

/-- What is found by computing with the catalogue. All rules compile, each pattern has captures but
none stands for anything, after an application at most one other can follow at the same position, and
the rules drop a constant operand. -/
theorem catalogue_computed : (catalogueSides.length == Catalogue.all.length &&
    (catalogueSides.all fun side => !side.1.captures.isEmpty && (!side.1.tree.isOpen &&
      RuleStore.settlesWithin catalogueSides 1 side.2.tree)) &&
    ((Rewriter.mk { builtinRules := true } "unit" catalogueSides).rewriteUnit 9
      guardedCall).toOption.map (fun r => (r.1.label.isStmtList, r.1.programText, r.2)) ==
        some (true, "if (ready()) go();", ⟨1, 12⟩)) = true := by
  rw [catalogueSides_eq]
  decide +kernel

theorem catalogue_settles : catalogueSides.length = Catalogue.all.length ∧
    ∀ side ∈ catalogueSides, side.1.captures.isEmpty = false ∧ side.1.tree.isOpen = false ∧
      RuleStore.settlesWithin catalogueSides 1 side.2.tree = true := by
  have hcheck := (Bool.and_eq_true_iff.mp catalogue_computed).1
  simpa using hcheck

theorem rewriteUnit_guardedCall : ∃ t,
    (Rewriter.mk { builtinRules := true } "unit" catalogueSides).rewriteUnit 9 guardedCall =
      .ok (t, ⟨1, 12⟩) ∧ t.label.isStmtList = true ∧ t.programText = "if (ready()) go();" := by
  have hcheck := eq_of_beq (Bool.and_eq_true_iff.mp catalogue_computed).2
  cases hresult : (Rewriter.mk { builtinRules := true } "unit" catalogueSides).rewriteUnit 9
      guardedCall with
  | error x =>
      rw [hresult] at hcheck
      cases hcheck
  | ok r =>
      rw [hresult] at hcheck
      obtain ⟨hlist, hrest⟩ := Prod.mk.inj (Option.some.inj hcheck)
      obtain ⟨htext, hcounts⟩ := Prod.mk.inj hrest
      exact ⟨r.1, congrArg (fun s => Except.ok (r.1, s)) hcounts, hlist, htext⟩

theorem OfCatalogue.settles (h : e.OfCatalogue) (hlimit : 2 ≤ e.config.maxRewritesPerNode)
    (hdepth : 2 ≤ e.config.maxDepth) (origin : String) : (e.rewriter origin).Settles 1 := by
  have hsides : (e.rewriter origin).sides = catalogueSides := h.sides
  refine ⟨h.reached.compiled, ?_, ?_, hdepth, hlimit⟩
  · rw [hsides]
    exact fun side hside => (catalogue_settles.2 side hside).2.1
  · rw [hsides]
    exact fun side hside => (catalogue_settles.2 side hside).2.2

/-- A pass with the rules of the catalogue never fails. On every unit whose nodes form one tree it
ends well after a number of steps, and before that it goes on; no position is rewritten more than
twice, and there are at most twice as many rewrites as the unit had nodes. -/
theorem processWithin_catalogue (he : e.OfCatalogue) (h : a.TreeShaped root)
    (hlimit : 2 ≤ e.config.maxRewritesPerNode) (hdepth : 2 ≤ e.config.maxDepth) :
    ∃ n s, (∀ steps, (e.processWithin steps a).result =
        if steps < n then .error .unfinished else .ok s) ∧
      s.rewrites ≤ 2 * a.liveCount ∧
      ∀ p, e.PassState a root p → ∀ f ∈ p.stack, f.applications ≤ 2 := by
  obtain ⟨l, rfl, ha⟩ := h.exists_owns
  have hrules : e.rules.size ≠ 0 := by
    rw [← RuleStore.length_sides, he.sides, catalogue_settles.1]
    decide
  have hsize : a.liveCount = l.tree.size := by rw [ha.liveCount_eq, l.size_tree]
  rw [hsize]
  exact processWithin_of_settles ha h.root_eq hrules (he.settles hlimit hdepth a.origin)

def successorTree : Tree :=
  .list .stmtList
    [.fixed .assign
      [some (.var "x" 1),
        some (.fixed (.binary .add) [some (.var "x" 1), some (.literal (.int 1) 1)] 1)] 1] 1

/-- The assignment becomes a compound one and that a step. -/
theorem processWithin_successorTree :
    ∃ root n s, ((Engine.new defaultSigil {}).addCatalogue).2.OfCatalogue ∧
      (Arena.ofTree "unit" successorTree).TreeShaped root ∧
      (∀ steps, ((((Engine.new defaultSigil {}).addCatalogue).2).processWithin steps
          (.ofTree "unit" successorTree)).result =
        if steps < n then .error .unfinished else .ok s) ∧
      s.rewrites ≤ 2 * (Arena.ofTree "unit" successorTree).liveCount := by
  obtain ⟨root, hshape, -⟩ := Arena.ofTree_treeShaped "unit" (t := successorTree) (by decide)
  have he : ((Engine.new defaultSigil {}).addCatalogue).2.OfCatalogue := .new {} rfl
  have hlimit : 2 ≤ ((Engine.new defaultSigil {}).addCatalogue).2.config.maxRewritesPerNode := by
    rw [config_addCatalogue]
    decide
  have hdepth : 2 ≤ ((Engine.new defaultSigil {}).addCatalogue).2.config.maxDepth := by
    rw [config_addCatalogue]
    decide
  obtain ⟨n, s, hresult, hrewrites, -⟩ := processWithin_catalogue he hshape hlimit hdepth
  exact ⟨root, n, s, he, hshape, hresult, hrewrites⟩

end Engine

end SnippetRewrite
