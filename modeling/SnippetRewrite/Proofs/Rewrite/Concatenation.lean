import SnippetRewrite.Proofs.Rewrite.Settling

/-!
Units put together. The list of the statements of a unit is no place for a rule whose pattern stands
for something else than a list, and the visit of a statement depends on the statements before it in
nothing but the counts. So the statements of a unit are rewritten independently, and a unit that
consists of the statements of two others is rewritten as these are, one after the other.
-/

namespace SnippetRewrite

open Placement

namespace Summary

@[simp] theorem merge_zero (s : Summary) : s.merge zero = s := rfl

theorem zero_merge (s : Summary) : zero.merge s = s := by
  simp only [merge, zero, Nat.zero_add]

end Summary

namespace Rewriter

variable {r : Rewriter} {bound apps growth : Nat} {t : Tree} {s d : Summary}
  {slots xs ys : List (Option Tree)}

def later {α : Type} (d : Summary) :
    Except RewriteError (α × Summary) → Except RewriteError (α × Summary) :=
  Except.map fun result => (result.1, result.2.merge d)

/-- The visit of a tree depends on the counts before it only in that it adds to them. -/
def Counts (visit : Visitor) : Prop :=
  ∀ t s d, visit t (s.merge d) = later d (visit t s)

theorem later_bind {α β : Type} (x : Except RewriteError (α × Summary))
    {f : α × Summary → Except RewriteError (β × Summary)}
    (hf : ∀ v s, f (v, s.merge d) = later d (f (v, s))) :
    (later d x >>= f) = later d (x >>= f) := by
  cases x with
  | error e => rfl
  | ok result => exact hf result.1 result.2

theorem visitSlots_counts {visit : Visitor} (h : Counts visit) (slots : List (Option Tree))
    (s d : Summary) :
    visitSlots visit slots (s.merge d) = later d (visitSlots visit slots s) := by
  induction slots generalizing s with
  | nil => rfl
  | cons o rest ih =>
      cases o with
      | none =>
          rw [visitSlots, visitSlots, ih]
          exact later_bind _ fun _ _ => rfl
      | some t =>
          rw [visitSlots, visitSlots, h]
          refine later_bind _ fun u s => ?_
          dsimp only
          rw [ih]
          exact later_bind _ fun _ _ => rfl

theorem visitChild_counts {visit : Visitor} (h : Counts visit) :
    Counts (r.visitChild growth visit) := by
  intro t s d
  have hnext : ({ s.merge d with nodesVisited := (s.merge d).nodesVisited + 1 } : Summary) =
      Summary.merge { s with nodesVisited := s.nodesVisited + 1 } d := by
    simp only [Summary.merge, Nat.add_right_comm]
  rw [visitChild, visitChild, hnext]
  split
  · rfl
  · exact h t _ d

theorem settle_counts {again : Visitor} (h : Counts again) : Counts (r.settle apps again) := by
  intro t s d
  rw [settle, settle]
  split
  · rfl
  · split
    · rfl
    · split
      · rfl
      · rename_i u _
        have hnext : ({ s.merge d with rewrites := (s.merge d).rewrites + 1 } : Summary) =
            Summary.merge { s with rewrites := s.rewrites + 1 } d := by
          simp only [Summary.merge, Nat.add_right_comm]
        rw [hnext]
        exact h u _ d

theorem rewrite_counts (r : Rewriter) (bound apps growth : Nat) :
    Counts (r.rewrite bound apps growth) := by
  induction bound generalizing apps growth with
  | zero => exact fun _ _ _ => rfl
  | succ bound ih =>
      rintro ⟨line, label, slots⟩ s d
      rw [rewrite, rewrite, visitSlots_counts (visitChild_counts (ih 0 _))]
      exact later_bind _ fun us s => settle_counts (ih (apps + 1) growth) _ s d

/-! ### The list of all statements -/

/-- No pattern of a rule stands for a statement list or for anything. -/
def SparesLists (r : Rewriter) : Prop :=
  ∀ side ∈ r.sides, (∀ name, side.1.tree.label ≠ .capture name) ∧
    side.1.tree.label ≠ .list .stmtList

theorem isOpen_of_label {p : Tree} (hcapture : ∀ name, p.label ≠ .capture name)
    (hlist : p.label ≠ .list .stmtList) : p.isOpen = false := by
  obtain ⟨line, label, slots⟩ := p
  cases label with
  | capture name => exact (hcapture name rfl).elim
  | list kind =>
      cases kind with
      | stmtList => exact (hlist rfl).elim
      | _ => rfl
  | _ => rfl

/-- Such a pattern does not match a list of statements in normal form. If a single statement is
looked at in its place, the pattern would match that. -/
theorem firstOn_statements (h : r.SparesLists) (hbelow : ∀ t, some t ∈ slots → r.Normal t)
    (line : Nat) :
    RuleStore.firstOn (Pass.matcher r.config) (.node line (.list .stmtList) slots) 0 r.sides =
      none := by
  apply RuleStore.firstOn_eq_none
  intro side hside
  obtain ⟨hcapture, hlist⟩ := h side hside
  have hclosed := isOpen_of_label hcapture hlist
  cases hp : side.1.tree with
  | node pline plabel pslots =>
      rw [hp] at hclosed hlist
      rw [Matcher.treeMatch_of_isOpen hclosed]
      rcases (Pass.matcher r.config).seenTree_or (.node line (.list .stmtList) slots) with
        hseen | ⟨line', only, hnode, hseen⟩
      · have hlabel : plabel.same (.list .stmtList) = false := by
          cases plabel with
          | list kind =>
              cases kind with
              | stmtList => exact (hlist rfl).elim
              | _ => rfl
          | _ => rfl
        rw [hseen, if_neg]
        intro hsame
        rw [show plabel.same (.list .stmtList) = true from hsame.1] at hlabel
        cases hlabel
      · cases hnode
        have honly : r.Normal only := hbelow only List.mem_cons_self
        have hnone := RuleStore.treeMatch_of_firstOn_none honly.firstOn hside
        rw [hp, Matcher.treeMatch_of_isOpen hclosed] at hnone
        rw [hseen]
        exact hnone

def statements (r : Rewriter) (bound : Nat) (xs : List (Option Tree)) :
    Except RewriteError (List (Option Tree) × Summary) :=
  visitSlots (r.visitChild 0 (r.rewrite bound 0 0)) xs .zero

theorem statements_counts (r : Rewriter) (bound : Nat) (xs : List (Option Tree)) (d : Summary) :
    visitSlots (r.visitChild 0 (r.rewrite bound 0 0)) xs d = later d (r.statements bound xs) := by
  rw [statements, ← visitSlots_counts (visitChild_counts (r.rewrite_counts bound 0 0)),
    Summary.zero_merge]

/-- To rewrite a unit is to rewrite its statements. -/
theorem rewriteUnit_statements (h : r.SparesLists) (bound line : Nat) (xs : List (Option Tree)) :
    r.rewriteUnit (bound + 1) (.node line (.list .stmtList) xs) =
      (r.statements bound xs).map fun result =>
        (.node line (.list .stmtList) result.1, result.2.merge ⟨0, 1⟩) := by
  rw [rewriteUnit, rewrite, innerGrowth, if_neg (Nat.lt_irrefl 0), statements_counts]
  cases hxs : r.statements bound xs with
  | error x => rfl
  | ok result =>
      obtain ⟨us, s⟩ := result
      obtain ⟨hnormal, -, -⟩ := visitSlots_ok (fun _ _ _ h => rewrite_ok h) hxs
      show r.settle 0 _ (.node line (.list .stmtList) us) (s.merge ⟨0, 1⟩) = _
      rw [settle, firstOn_statements h hnormal]
      rfl

theorem statements_append (r : Rewriter) (bound : Nat) (xs ys : List (Option Tree)) :
    r.statements bound (xs ++ ys) = (do
      let (us, s) ← r.statements bound xs
      let (vs, s') ← r.statements bound ys
      pure (us ++ vs, s'.merge s)) := by
  have happend (s : Summary) :
      visitSlots (r.visitChild 0 (r.rewrite bound 0 0)) (xs ++ ys) s = (do
        let (us, s) ← visitSlots (r.visitChild 0 (r.rewrite bound 0 0)) xs s
        let (vs, s) ← visitSlots (r.visitChild 0 (r.rewrite bound 0 0)) ys s
        pure (us ++ vs, s)) := by
    induction xs generalizing s with
    | nil =>
        rw [List.nil_append, visitSlots, ok_bind]
        dsimp only
        cases visitSlots (r.visitChild 0 (r.rewrite bound 0 0)) ys s <;> rfl
    | cons o rest ih =>
        cases o with
        | none =>
            rw [List.cons_append, visitSlots, visitSlots, ih]
            simp only [bind_assoc, pure_bind, List.cons_append]
        | some t =>
            rw [List.cons_append, visitSlots, visitSlots]
            simp only [ih, bind_assoc, pure_bind, List.cons_append]
  rw [statements, happend]
  refine congrArg (r.statements bound xs >>= ·) (funext fun x => ?_)
  obtain ⟨us, s⟩ := x
  dsimp only
  rw [statements_counts]
  cases r.statements bound ys <;> rfl

end Rewriter

/-! ### Units -/

/-- A unit whose nodes form one tree, which is a list of statements. -/
structure Arena.HasStatements (a : Arena) (root : NodeId) (line : Nat) (xs : List (Option Tree)) :
    Prop where
  shape : a.TreeShaped root
  tree : a.tree root = .ok (.node line (.list .stmtList) xs)

theorem Arena.HasStatements.exists_owns {a : Arena} {root : NodeId} {line : Nat}
    {xs : List (Option Tree)} (h : a.HasStatements root line xs) :
    ∃ l : Placement, l.root = root ∧ a.Owns l.entries ∧
      l.tree = .node line (.list .stmtList) xs := by
  obtain ⟨l, rfl, ha⟩ := h.shape.exists_owns
  exact ⟨l, rfl, ha, Except.ok.inj (ha.holds_all.tree_eq.symm.trans h.tree)⟩

namespace Engine

variable {e : Engine} {a b c : Arena} {root : NodeId} {line steps bound : Nat}
  {xs ys : List (Option Tree)} {s : Summary} {x : RewriteError}

/-- With enough steps the outcome of a pass over a unit has a property. -/
def Concludes (e : Engine) (a : Arena) (P : Processed → Prop) : Prop :=
  ∃ enough, ∀ steps, enough ≤ steps → P (e.processWithin steps a)

/-- No pattern of a rule stands for a statement list or for anything. -/
def SparesLists (e : Engine) : Prop :=
  ∀ rule ∈ e.rules.rules, (∀ name, rule.pattern.tree.label ≠ .capture name) ∧
    rule.pattern.tree.label ≠ .list .stmtList

theorem SparesLists.rewriter (h : e.SparesLists) (origin : String) :
    (e.rewriter origin).SparesLists := by
  intro side hside
  obtain ⟨rule, hrule, rfl⟩ := List.mem_map.mp hside
  exact h rule hrule

/-- A pass that comes to an end has rewritten the statements one after the other. -/
theorem matches_statements (h : a.HasStatements root line xs) (hlists : e.SparesLists)
    (hrules : e.rules.size ≠ 0) (hle : steps ≤ bound)
    (hended : (e.processWithin steps a).result ≠ .error .unfinished) :
    (e.processWithin steps a).Matches root
      (((e.rewriter a.origin).statements bound xs).map fun result =>
        (.node line (.list .stmtList) result.1, result.2.merge ⟨0, 1⟩)) := by
  obtain ⟨l, rfl, ha, htree⟩ := h.exists_owns
  rw [← Rewriter.rewriteUnit_statements (hlists.rewriter a.origin), ← htree]
  exact matches_of_ended ha h.shape.root_eq hrules (Nat.le_succ_of_le hle) hended

theorem exists_statements_of_ok (h : a.HasStatements root line xs) (hlists : e.SparesLists)
    (hrules : e.rules.size ≠ 0) (hle : steps ≤ bound)
    (hok : (e.processWithin steps a).result = .ok s) :
    ∃ us d, (e.rewriter a.origin).statements bound xs = .ok (us, d) ∧ s = d.merge ⟨0, 1⟩ ∧
      (e.processWithin steps a).arena.tree root = .ok (.node line (.list .stmtList) us) := by
  obtain ⟨hresult, htree⟩ := matches_statements h hlists hrules hle (by simp [hok])
  cases hxs : (e.rewriter a.origin).statements bound xs with
  | error x =>
      rw [hok, hxs] at hresult
      cases hresult
  | ok result =>
      obtain ⟨us, d⟩ := result
      rw [hxs] at hresult htree
      rw [hok] at hresult
      cases hresult
      exact ⟨us, d, rfl, rfl, (htree _ _ rfl).2⟩

theorem statements_of_error (h : a.HasStatements root line xs) (hlists : e.SparesLists)
    (hrules : e.rules.size ≠ 0) (hle : steps ≤ bound)
    (herror : (e.processWithin steps a).result = .error x) (hx : x ≠ .unfinished) :
    (e.rewriter a.origin).statements bound xs = .error x := by
  have hended : (e.processWithin steps a).result ≠ .error .unfinished := by
    rw [herror]
    exact fun heq => hx (Except.error.inj heq)
  obtain ⟨hresult, -⟩ := matches_statements h hlists hrules hle hended
  cases hxs : (e.rewriter a.origin).statements bound xs with
  | error y =>
      rw [herror, hxs] at hresult
      cases hresult
      rfl
  | ok result =>
      rw [herror, hxs] at hresult
      cases hresult

/-- A pass does with a unit what is done with its statements. -/
theorem concludes_of_statements (h : a.HasStatements root line xs) (hlists : e.SparesLists)
    (hrules : e.rules.size ≠ 0) (bound : Nat)
    (hended : (e.rewriter a.origin).statements bound xs ≠ .error .unfinished) :
    e.Concludes a fun r => r.Matches root
      (((e.rewriter a.origin).statements bound xs).map fun result =>
        (.node line (.list .stmtList) result.1, result.2.merge ⟨0, 1⟩)) := by
  obtain ⟨l, rfl, ha, htree⟩ := h.exists_owns
  rw [← Rewriter.rewriteUnit_statements (hlists.rewriter a.origin), ← htree]
  apply exists_matches ha h.shape.root_eq hrules
  rw [htree, Rewriter.rewriteUnit_statements (hlists.rewriter a.origin)]
  cases hxs : (e.rewriter a.origin).statements bound xs with
  | error y =>
      rw [hxs] at hended
      exact fun heq => hended (congrArg _ (Except.error.inj heq))
  | ok result => exact fun heq => nomatch heq

theorem concludes_of_error (h : a.HasStatements root line xs) (hlists : e.SparesLists)
    (hrules : e.rules.size ≠ 0) (hx : x ≠ .unfinished)
    (hxs : (e.rewriter a.origin).statements bound xs = .error x) :
    e.Concludes a fun r => r.result = .error x := by
  have hended : (e.rewriter a.origin).statements bound xs ≠ .error .unfinished := by
    rw [hxs]
    exact fun heq => hx (Except.error.inj heq)
  obtain ⟨enough, hmatches⟩ := concludes_of_statements h hlists hrules bound hended
  refine ⟨enough, fun more hmore => ?_⟩
  have hresult := (hmatches more hmore).1
  rwa [hxs] at hresult

/-- The outcome of a pass over a unit with the statements of two others, of which the first has
been rewritten to `us` and the second to `vs`. -/
structure Joined (e : Engine) (root : NodeId) (line : Nat) (us vs : List (Option Tree))
    (s s' : Summary) (r : Processed) : Prop where
  result : ∃ u, r.result = .ok u ∧ u.rewrites = s.rewrites + s'.rewrites ∧
    (e.rules.size ≠ 0 → u.nodesVisited + 1 = s.nodesVisited + s'.nodesVisited)
  tree : r.arena.tree root = .ok (.node line (.list .stmtList) (us ++ vs))

/-- The visit of the root is counted with each of the two. -/
theorem concludes_joined {us vs : List (Option Tree)} {d d' : Summary}
    (h : a.HasStatements root line (xs ++ ys)) (hlists : e.SparesLists) (hrules : e.rules.size ≠ 0)
    (hus : (e.rewriter a.origin).statements bound xs = .ok (us, d))
    (hvs : (e.rewriter a.origin).statements bound ys = .ok (vs, d')) :
    e.Concludes a (e.Joined root line us vs (d.merge ⟨0, 1⟩) (d'.merge ⟨0, 1⟩)) := by
  have hall : (e.rewriter a.origin).statements bound (xs ++ ys) = .ok (us ++ vs, d'.merge d) := by
    rw [Rewriter.statements_append, hus, ok_bind]
    dsimp only
    rw [hvs]
    rfl
  obtain ⟨enough, hmatches⟩ := concludes_of_statements h hlists hrules bound (by simp [hall])
  refine ⟨enough, fun more hmore => ?_⟩
  obtain ⟨hresult, htrees⟩ := hmatches more hmore
  rw [hall] at hresult htrees
  refine ⟨⟨_, hresult, ?_, fun _ => ?_⟩, (htrees _ _ rfl).2⟩
  · simp only [Summary.merge]
    omega
  · simp only [Summary.merge]
    omega

/-- The statements of a unit are rewritten independently. If no pattern stands for a statement list
or for anything, and a unit consists of the statements of two others, then it is rewritten to what
these are rewritten to, one after the other; if the pass over one of them fails, the pass over the
whole fails in the same way, and the first failure counts. -/
theorem processWithin_append {i j k : NodeId} {l m n : Nat} (hlists : e.SparesLists)
    (ha : a.HasStatements i l xs) (hb : b.HasStatements j m ys)
    (hc : c.HasStatements k n (xs ++ ys)) (hab : b.origin = a.origin) (hac : c.origin = a.origin) :
    (∀ steps steps' s s', (e.processWithin steps a).result = .ok s →
      (e.processWithin steps' b).result = .ok s' →
      ∃ us vs,
        (e.processWithin steps a).arena.tree i = .ok (.node l (.list .stmtList) us) ∧
        (e.processWithin steps' b).arena.tree j = .ok (.node m (.list .stmtList) vs) ∧
        e.Concludes c (e.Joined k n us vs s s')) ∧
    (∀ steps x, (e.processWithin steps a).result = .error x → x ≠ .unfinished →
      e.Concludes c fun r => r.result = .error x) ∧
    (∀ steps steps' s x, (e.processWithin steps a).result = .ok s →
      (e.processWithin steps' b).result = .error x → x ≠ .unfinished →
      e.Concludes c fun r => r.result = .error x) := by
  by_cases hrules : e.rules.size = 0
  · -- all units stay as they are
    have hsame := processWithin_of_noRules hrules
    refine ⟨fun steps steps' s s' hs hs' => ?_, fun steps x hx => ?_, fun _ steps' _ x _ hx => ?_⟩
    · simp only [hsame] at hs hs' ⊢
      cases hs
      cases hs'
      refine ⟨xs, ys, ha.tree, hb.tree, 0, fun more _ => ?_⟩
      rw [hsame]
      exact ⟨⟨.zero, rfl, rfl, fun hne => (hne hrules).elim⟩, hc.tree⟩
    · rw [hsame] at hx
      cases hx
    · rw [hsame] at hx
      cases hx
  · have hra : e.rewriter c.origin = e.rewriter a.origin := by rw [hac]
    have hrb : e.rewriter b.origin = e.rewriter a.origin := by rw [hab]
    refine ⟨fun steps steps' s s' hs hs' => ?_, fun steps x hx hne => ?_,
      fun steps steps' s x hs hx hne => ?_⟩
    · obtain ⟨us, d, hus, rfl, htree⟩ :=
        exists_statements_of_ok ha hlists hrules (Nat.le_max_left steps steps') hs
      obtain ⟨vs, d', hvs, rfl, htree'⟩ :=
        exists_statements_of_ok hb hlists hrules (Nat.le_max_right steps steps') hs'
      rw [hrb] at hvs
      rw [← hra] at hus hvs
      exact ⟨us, vs, htree, htree', concludes_joined hc hlists hrules hus hvs⟩
    · apply concludes_of_error hc hlists hrules hne
      rw [hra, Rewriter.statements_append,
        statements_of_error ha hlists hrules (Nat.le_refl steps) hx hne]
      rfl
    · obtain ⟨us, d, hus, -, -⟩ :=
        exists_statements_of_ok ha hlists hrules (Nat.le_max_left steps steps') hs
      have hvs := statements_of_error hb hlists hrules (Nat.le_max_right steps steps') hx hne
      rw [hrb] at hvs
      apply concludes_of_error hc hlists hrules hne
      rw [hra, Rewriter.statements_append, hus, ok_bind]
      dsimp only
      rw [hvs]
      rfl

def twoSumsTree : Tree :=
  .node 1 (.list .stmtList) (sumTree.slots ++ sumTree.slots)

theorem dropZero_append :
    ∃ root us vs, (Arena.ofTree "unit" twoSumsTree).TreeShaped root ∧ dropZero.SparesLists ∧
      dropZero.Concludes (.ofTree "unit" twoSumsTree)
        (dropZero.Joined root 1 us vs ⟨1, 4⟩ ⟨1, 4⟩) := by
  obtain ⟨i, hi, hti⟩ := Arena.ofTree_treeShaped "unit" (t := sumTree) (by decide)
  obtain ⟨k, hk, htk⟩ := Arena.ofTree_treeShaped "unit" (t := twoSumsTree) (by decide)
  have hlists : dropZero.SparesLists := by
    have hsum : ∀ rule ∈ dropZero.rules.rules,
        rule.pattern.tree.label = .fixed (.binary .add) := by
      decide +kernel
    intro rule hrule
    simp [hsum rule hrule]
  have hresult : (dropZero.processWithin 9 (.ofTree "unit" sumTree)).result = .ok ⟨1, 4⟩ := by
    decide +kernel
  have happend := processWithin_append (c := .ofTree "unit" twoSumsTree) hlists ⟨hi, hti⟩ ⟨hi, hti⟩
    ⟨hk, htk⟩ rfl rfl
  obtain ⟨us, vs, -, -, hjoined⟩ := happend.1 9 9 _ _ hresult hresult
  exact ⟨k, us, vs, hk, hlists, hjoined⟩

end Engine

end SnippetRewrite
