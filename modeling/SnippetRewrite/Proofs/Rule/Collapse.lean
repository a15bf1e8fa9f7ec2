import SnippetRewrite.Proofs.Rule.Captured

/-!
Matching where statement lists with one statement are transparent. Such a list and the statement in
it have the same collapsed form, in which every list with exactly one statement has given way to
that statement. A match makes the collapsed forms of pattern and target equal. Conversely equal
collapsed forms make a match if no capture name occurs twice; a name that does might be asked to
bind a statement in one place and the list around it in the other, which the matcher keeps apart.
-/

namespace SnippetRewrite

namespace Tree

mutual

/-- The tree with each statement list that holds exactly one statement replaced by the latter. -/
def collapse : Tree → Tree
  | .node _ (.list .stmtList) [some only] => collapse only
  | .node line label slots => .node line label (collapseSlots slots)

def collapseSlots : List (Option Tree) → List (Option Tree)
  | [] => []
  | none :: rest => none :: collapseSlots rest
  | some t :: rest => some (collapse t) :: collapseSlots rest

end

mutual

/-- The names at the capture points of a tree in preorder, each as often as it occurs. -/
def captureOccurrences : Tree → List String
  | .node _ (.capture name) _ => [name]
  | .node _ _ slots => captureOccurrencesIn slots

def captureOccurrencesIn : List (Option Tree) → List String
  | [] => []
  | none :: rest => captureOccurrencesIn rest
  | some t :: rest => captureOccurrences t ++ captureOccurrencesIn rest

end

def IsSingle (label : Label) (slots : List (Option Tree)) : Prop :=
  label = .list .stmtList ∧ ∃ only, slots = [some only]

theorem collapse_node {line : Nat} {label : Label} {slots : List (Option Tree)}
    (h : ¬ IsSingle label slots) :
    (node line label slots).collapse = node line label (collapseSlots slots) := by
  rw [collapse]
  rintro only rfl rfl
  exact h ⟨rfl, only, rfl⟩

theorem captureOccurrences_node (line : Nat) {label : Label}
    (hlabel : ∀ name, label ≠ .capture name) (slots : List (Option Tree)) :
    (node line label slots).captureOccurrences = captureOccurrencesIn slots := by
  cases label with
  | capture name => exact (hlabel name rfl).elim
  | _ => rw [captureOccurrences]; simp

theorem collapse_unwrapSingle (t : Tree) : t.unwrapSingle.collapse = t.collapse := by
  fun_induction unwrapSingle t with
  | case1 line only ih => rw [ih, collapse]
  | case2 t hne => rfl

theorem not_isSingle_unwrapSingle (t : Tree) :
    ¬ IsSingle t.unwrapSingle.label t.unwrapSingle.slots := by
  fun_induction unwrapSingle t with
  | case1 line only ih => exact ih
  | case2 t hne =>
      obtain ⟨line, label, slots⟩ := t
      rintro ⟨hlabel, only, hslots⟩
      exact hne line only (by rw [← show label = _ from hlabel, ← show slots = _ from hslots])

/-- The collapsed form of the node that is left when transparent lists are entered. -/
theorem collapse_eq (t : Tree) :
    t.collapse =
      node t.unwrapSingle.line t.unwrapSingle.label (collapseSlots t.unwrapSingle.slots) := by
  rw [← collapse_unwrapSingle, ← collapse_node (not_isSingle_unwrapSingle t)]
  cases t.unwrapSingle
  rfl

theorem hasNan_unwrapSingle {t : Tree} (h : t.hasNan = false) : t.unwrapSingle.hasNan = false := by
  fun_induction unwrapSingle t with
  | case1 line only ih =>
      simp only [hasNan, hasNanIn, Bool.or_eq_false_iff] at h
      exact ih h.2.1
  | case2 t hne => exact h

theorem hasNanIn_slots {t : Tree} (h : t.hasNan = false) : hasNanIn t.slots = false := by
  obtain ⟨line, label, slots⟩ := t
  simp only [hasNan, Bool.or_eq_false_iff] at h
  exact h.2

/-! ### Equal trees have equal collapsed forms -/

theorem isSingle_of_same {label label' : Label} {slots slots' : List (Option Tree)}
    (hlabel : label.same label' = true) (hslots : sameSlots slots slots' = true)
    (h : IsSingle label slots) : IsSingle label' slots' := by
  obtain ⟨rfl, only, rfl⟩ := h
  refine ⟨?_, ?_⟩
  · cases label' <;> simp_all [Label.same]
  · rcases slots' with _ | ⟨_ | t, _ | ⟨o, rest⟩⟩
    · simp [sameSlots] at hslots
    · simp [sameSlots] at hslots
    · simp [sameSlots] at hslots
    · exact ⟨t, rfl⟩
    · cases o <;> simp [sameSlots] at hslots

mutual

theorem same_collapse : (t u : Tree) → t.same u = true → t.collapse.same u.collapse = true
  | .node line label slots, .node line' label' slots', h => by
    rw [same, Bool.and_eq_true] at h
    by_cases hsingle : IsSingle label slots
    · obtain ⟨rfl, only, rfl⟩ := hsingle
      obtain ⟨rfl, only', rfl⟩ := isSingle_of_same h.1 h.2 ⟨rfl, only, rfl⟩
      rw [collapse, collapse]
      simp only [sameSlots, Bool.and_true] at h
      exact same_collapse only only' h.2
    · have hsingle' : ¬ IsSingle label' slots' := by
        rw [Label.same_comm, sameSlots_comm] at h
        exact fun h' => hsingle (isSingle_of_same h.1 h.2 h')
      rw [collapse_node hsingle, collapse_node hsingle', same, Bool.and_eq_true]
      exact ⟨h.1, sameSlots_collapseSlots slots slots' h.2⟩

theorem sameSlots_collapseSlots : (xs ys : List (Option Tree)) → sameSlots xs ys = true →
    sameSlots (collapseSlots xs) (collapseSlots ys) = true
  | [], [], _ => rfl
  | none :: xs, none :: ys, h => sameSlots_collapseSlots xs ys h
  | some x :: xs, some y :: ys, h => by
    simp only [sameSlots, collapseSlots, Bool.and_eq_true] at h ⊢
    exact ⟨same_collapse x y h.1, sameSlots_collapseSlots xs ys h.2⟩
  | [], none :: _, h => by simp [sameSlots] at h
  | [], some _ :: _, h => by simp [sameSlots] at h
  | none :: _, [], h => by simp [sameSlots] at h
  | none :: _, some _ :: _, h => by simp [sameSlots] at h
  | some _ :: _, [], h => by simp [sameSlots] at h
  | some _ :: _, none :: _, h => by simp [sameSlots] at h

end

@[simp] theorem length_collapseSlots (slots : List (Option Tree)) :
    (collapseSlots slots).length = slots.length := by
  induction slots with
  | nil => rfl
  | cons o rest ih => cases o <;> simp [collapseSlots, ih]

end Tree

namespace Matcher

open SnippetRewrite.Tree

/-- The matcher to which statement lists with one statement are transparent. -/
def unwrapping : Matcher := {}

theorem isTransparent_unwrapping {label : Label} {slots : List (Option Tree)} :
    unwrapping.isTransparent label slots = true ↔ IsSingle label slots := by
  have hlabel : label.isStmtList = true ↔ label = .list .stmtList := by
    cases label with
    | list kind => cases kind <;> simp [Label.isStmtList]
    | _ => simp [Label.isStmtList]
  rcases slots with _ | ⟨_ | t, _ | ⟨o, rest⟩⟩ <;>
    simp [isTransparent, unwrapping, IsSingle, hlabel]

theorem isSingle_subst {f : Assignment} {label : Label} {slots : List (Option Tree)} :
    IsSingle label (substSlots f slots) ↔ IsSingle label slots := by
  rcases slots with _ | ⟨_ | t, _ | ⟨_ | u, rest⟩⟩ <;> simp [IsSingle, substSlots]

/-! ### Soundness -/

mutual

theorem unwrapping_sound (direct : Bool) : (p t : Tree) → (b c : TreeBindings) →
    t.hasNan = false → unwrapping.treeMatch direct p t b = some c →
    Sound b c fun f => (p.subst f).collapse.same t.collapse = true
  | .node line label slots, t, b, c, ht, h => by
    rcases label.capture_or with ⟨name, rfl⟩ | hlabel
    · rw [treeMatch_capture] at h
      -- the bound tree may be a statement without the lists around it
      have hseen : (if direct then t else unwrapping.seenTree t).hasNan = false ∧
          (if direct then t else unwrapping.seenTree t).collapse = t.collapse := by
        cases direct with
        | true => exact ⟨ht, rfl⟩
        | false => exact ⟨hasNan_unwrapSingle ht, collapse_unwrapSingle t⟩
      obtain ⟨hext, hbound⟩ := bindTree_sound hseen.1 h
      refine ⟨hext, fun f hf => ?_⟩
      rw [← hseen.2, subst]
      exact same_collapse _ _ (hbound f hf)
    · rw [treeMatch_node unwrapping direct line hlabel] at h
      split at h
      · rename_i htrans
        obtain ⟨rfl, only, rfl⟩ := isTransparent_unwrapping.mp htrans
        obtain ⟨hext, honly⟩ := unwrapping_sound false only t b c ht h
        refine ⟨hext, fun f hf => ?_⟩
        rw [subst_node f line hlabel, substSlots, substSlots, collapse]
        exact honly f hf
      · rename_i htrans
        split at h
        · rename_i hsame
          obtain ⟨hext, hslots⟩ := unwrappingSlots_sound slots _ b c
            (hasNanIn_slots (hasNan_unwrapSingle ht)) h
          refine ⟨hext, fun f hf => ?_⟩
          have hopen : ¬ IsSingle label (substSlots f slots) := fun hsingle =>
            htrans (isTransparent_unwrapping.mpr (isSingle_subst.mp hsingle))
          rw [subst_node f line hlabel, collapse_node hopen, collapse_eq t, same,
            Bool.and_eq_true]
          exact ⟨hsame.1, hslots f hf⟩
        · cases h

theorem unwrappingSlots_sound : (ps ts : List (Option Tree)) → (b c : TreeBindings) →
    hasNanIn ts = false → unwrapping.treeMatchSlots ps ts b = some c →
    Sound b c fun f => sameSlots (collapseSlots (substSlots f ps)) (collapseSlots ts) = true
  | [], [], b, c, _, h => by
    cases h
    exact ⟨.refl b, fun _ _ => rfl⟩
  | none :: ps, none :: ts, b, c, ht, h => by
    obtain ⟨hext, hslots⟩ := unwrappingSlots_sound ps ts b c ht h
    exact ⟨hext, hslots⟩
  | some p :: ps, some t :: ts, b, c, ht, h => by
    simp only [hasNanIn, Bool.or_eq_false_iff] at ht
    obtain ⟨d, hd, h⟩ := Option.bind_eq_some_iff.mp h
    obtain ⟨hext, hfirst⟩ := unwrapping_sound true p t b d ht.1 hd
    obtain ⟨hext', hrest⟩ := unwrappingSlots_sound ps ts d c ht.2 h
    refine ⟨hext.trans hext', fun f hf => ?_⟩
    simp only [substSlots, collapseSlots, sameSlots, Bool.and_eq_true]
    exact ⟨hfirst f (hext'.agrees hf), hrest f hf⟩
  | [], none :: _, _, _, _, h => by cases h
  | [], some _ :: _, _, _, _, h => by cases h
  | none :: _, [], _, _, _, h => by cases h
  | none :: _, some _ :: _, _, _, _, h => by cases h
  | some _ :: _, [], _, _, _, h => by cases h
  | some _ :: _, none :: _, _, _, _, h => by cases h

end

/-! ### Completeness -/

def Unbound (names : List String) (b : TreeBindings) : Prop :=
  ∀ name ∈ names, b.get? name = none

theorem unbound_of_names {b c : TreeBindings} {names more : List String}
    (hc : c.map (·.1) = b.map (·.1) ++ names) (hb : Unbound (names ++ more) b)
    (hnodup : (names ++ more).Nodup) : Unbound more c := by
  intro name hname
  rw [TreeBindings.get?_eq_none, hc, List.mem_append, not_or]
  refine ⟨TreeBindings.get?_eq_none.mp (hb name (List.mem_append_right _ hname)), fun hmem => ?_⟩
  exact (List.nodup_append.mp hnodup).2.2 name hmem name hname rfl

mutual

theorem unwrapping_complete {f : Assignment} (direct : Bool) : (p t : Tree) → (b : TreeBindings) →
    p.captureOccurrences.Nodup → Unbound p.captureOccurrences b →
    (p.subst f).collapse.same t.collapse = true →
    ∃ c, unwrapping.treeMatch direct p t b = some c ∧
      c.map (·.1) = b.map (·.1) ++ p.captureOccurrences
  | .node line label slots, t, b, hnodup, hb, h => by
    rcases label.capture_or with ⟨name, rfl⟩ | hlabel
    · have hnew : b.get? name = none := hb name (by simp [captureOccurrences])
      rw [treeMatch_capture]
      refine ⟨b ++ [(name, if direct then t else unwrapping.seenTree t)], ?_, ?_⟩
      · simp only [bindTree, hnew]
      · simp [captureOccurrences]
    · rw [treeMatch_node unwrapping direct line hlabel]
      rw [captureOccurrences_node line hlabel] at hnodup hb ⊢
      rw [subst_node f line hlabel] at h
      by_cases hsingle : IsSingle label slots
      · rw [if_pos (isTransparent_unwrapping.mpr hsingle)]
        obtain ⟨rfl, only, rfl⟩ := hsingle
        rw [substSlots, substSlots, collapse] at h
        simp only [captureOccurrencesIn, List.append_nil] at hnodup hb ⊢
        exact unwrapping_complete false only t b hnodup hb h
      · rw [if_neg fun htrans => hsingle (isTransparent_unwrapping.mp htrans)]
        rw [collapse_node fun hs => hsingle (isSingle_subst.mp hs), collapse_eq t, same,
          Bool.and_eq_true] at h
        have hlen : slots.length = (unwrapping.seenTree t).slots.length := by
          have hlen' := length_eq_of_sameSlots h.2
          rwa [length_collapseSlots, length_collapseSlots, length_substSlots] at hlen'
        rw [if_pos ⟨h.1, hlen⟩]
        exact unwrappingSlots_complete slots _ b hnodup hb h.2

theorem unwrappingSlots_complete {f : Assignment} : (ps ts : List (Option Tree)) →
    (b : TreeBindings) → (captureOccurrencesIn ps).Nodup → Unbound (captureOccurrencesIn ps) b →
    sameSlots (collapseSlots (substSlots f ps)) (collapseSlots ts) = true →
    ∃ c, unwrapping.treeMatchSlots ps ts b = some c ∧
      c.map (·.1) = b.map (·.1) ++ captureOccurrencesIn ps
  | [], [], b, _, _, _ => ⟨b, rfl, by simp [captureOccurrencesIn]⟩
  | none :: ps, none :: ts, b, hnodup, hb, h => unwrappingSlots_complete ps ts b hnodup hb h
  | some p :: ps, some t :: ts, b, hnodup, hb, h => by
    simp only [substSlots, collapseSlots, sameSlots, Bool.and_eq_true] at h
    rw [captureOccurrencesIn] at hnodup hb ⊢
    obtain ⟨hfirst, hrest, -⟩ := List.nodup_append.mp hnodup
    obtain ⟨c, hc, hcnames⟩ := unwrapping_complete true p t b hfirst
      (fun name hname => hb name (List.mem_append_left _ hname)) h.1
    obtain ⟨d, hd, hdnames⟩ := unwrappingSlots_complete ps ts c hrest
      (unbound_of_names hcnames hb hnodup) h.2
    exact ⟨d, by rw [treeMatchSlots, hc, Option.bind_some, hd],
      by rw [hdnames, hcnames, List.append_assoc]⟩
  | [], none :: _, _, _, _, h => by simp [substSlots, collapseSlots, sameSlots] at h
  | [], some _ :: _, _, _, _, h => by simp [substSlots, collapseSlots, sameSlots] at h
  | none :: _, [], _, _, _, h => by simp [substSlots, collapseSlots, sameSlots] at h
  | none :: _, some _ :: _, _, _, _, h => by simp [substSlots, collapseSlots, sameSlots] at h
  | some _ :: _, [], _, _, _, h => by simp [substSlots, collapseSlots, sameSlots] at h
  | some _ :: _, none :: _, _, _, _, h => by simp [substSlots, collapseSlots, sameSlots] at h

end

/-! ### Patterns -/

/-- Trees that are those of the bound slots agree with what is bound on trees. -/
theorem agrees_of_bound {a : Arena} {ids : List NodeId} {b : Bindings} {s : TreeBindings}
    {f : Assignment} (hb : a.Bound ids b s)
    (hclean : ∀ name t, s.get? name = some t → t.hasNan = false)
    (hf : ∀ name id, b.get? name = some id → a.tree id = .ok (f name)) : s.Agrees f := by
  intro name t ht
  rcases hb.get? name with ⟨-, hnone⟩ | ⟨id, u, hid, hu, l, hl, rfl, rfl⟩
  · rw [hnone] at ht
    cases ht
  · rw [hu] at ht
    cases ht
    have hname := hl.tree_eq.symm.trans (hf name l.root hid)
    rw [← Except.ok.inj hname, same_self, hclean name l.tree hu]
    rfl

theorem exists_assignment_of_bound {a : Arena} {ids : List NodeId} {b : Bindings}
    {s : TreeBindings} (hb : a.Bound ids b s) :
    ∃ f : Assignment, ∀ name id, b.get? name = some id → a.tree id = .ok (f name) := by
  refine ⟨s.assignment, fun name id hid => ?_⟩
  rcases hb.get? name with ⟨hnone, -⟩ | ⟨id', t, hid', ht, l, hl, rfl, rfl⟩
  · rw [hnone] at hid
    cases hid
  · rw [hid'] at hid
    cases hid
    rw [TreeBindings.assignment_of_get? ht]
    exact hl.tree_eq

/-- Where lists with one statement are transparent, matching is equality of collapsed forms. If a
compiled pattern matches a tree without NaN, it binds its captures in order, and with the bound
subtrees in the places of the captures it has the collapsed form of the tree. If no capture occurs
twice, the pattern matches whenever some assignment gives it the collapsed form of the tree. -/
theorem run_iff_same_collapse {r : SnippetReader} {source : String} {p : Pattern} {a : Arena}
    {id : NodeId} {t : Tree} (hp : r.pattern source = .ok p) (ha : a.Fits) (ht : a.tree id = .ok t)
    (hnan : t.hasNan = false) :
    ∃ found, unwrapping.run p a id = .ok found ∧
      (∀ b, found = some b → b.map (·.1) = p.captures ∧
        (∃ f : Assignment, ∀ name bound, b.get? name = some bound → a.tree bound = .ok (f name)) ∧
        ∀ f : Assignment, (∀ name bound, b.get? name = some bound → a.tree bound = .ok (f name)) →
          (p.tree.subst f).collapse.same t.collapse = true) ∧
      (p.tree.captureOccurrences.Nodup →
        (∃ f : Assignment, (p.tree.subst f).collapse.same t.collapse = true) → found.isSome) := by
  obtain ⟨l, hl, rfl, rfl⟩ := Arena.exists_holds_of_tree ha ht
  cases hmatch : unwrapping.treeMatch true p.tree l.tree [] with
  | none =>
      refine ⟨none, run_of_none hl hmatch, by simp, fun hnodup hsame => ?_⟩
      obtain ⟨f, hf⟩ := hsame
      obtain ⟨c, hc, -⟩ := unwrapping_complete true p.tree l.tree [] hnodup (fun _ _ => rfl) hf
      rw [hmatch] at hc
      cases hc
  | some c =>
      obtain ⟨b, hrun, hbound⟩ := run_of_some hl hmatch
      obtain ⟨hkept, hinstances⟩ := unwrapping_sound true p.tree l.tree [] c hnan hmatch
      have hclean := hkept.clean fun name u (hu : none = some u) => by cases hu
      refine ⟨some b, hrun, ?_, fun _ _ => rfl⟩
      rintro _ ⟨⟩
      refine ⟨?_, exists_assignment_of_bound hbound, fun f hf => ?_⟩
      · rw [hbound.names_eq, SnippetReader.captures_eq hp]
        exact treeMatch_names unwrapping true p.tree l.tree [] c hmatch
      · exact hinstances f (agrees_of_bound hbound hclean hf)

def callTree : Tree :=
  .fixed .call [some (.name "f" 1), some (.list .argList [] 1)] 1

/-- The tree of `if (x) { { f(); } }`. -/
def bracedBranch : Tree :=
  .fixed .ifElse
    [some (.var "x" 1), some (.list .stmtList [.list .stmtList [callTree] 1] 1), none] 1

/-- The pattern `if ($c) { $s; }` has one pair of braces and matches a call inside two. -/
theorem run_iff_same_collapse_braces :
    ∃ p id b, (SnippetReader.ofSigil defaultSigil).pattern "if ($c) { $s; }" = .ok p ∧
      (Arena.ofTree "unit" bracedBranch).tree id = .ok bracedBranch ∧
      bracedBranch.hasNan = false ∧ p.tree.captureOccurrences.Nodup ∧
      unwrapping.run p (.ofTree "unit" bracedBranch) id = .ok (some b) ∧
      b.map (·.1) = p.captures := by
  obtain ⟨root, hshape, ht⟩ := Arena.ofTree_treeShaped "unit" (t := bracedBranch) (by decide)
  have hcompiles : (((SnippetReader.ofSigil defaultSigil).pattern "if ($c) { $s; }").toOption.map
      fun p => (decide p.tree.captureOccurrences.Nodup &&
        (p.tree.subst fun name => if name = "c" then .var "x" 1 else callTree).collapse.same
          bracedBranch.collapse)) = some true := by
    decide +kernel
  cases hp : (SnippetReader.ofSigil defaultSigil).pattern "if ($c) { $s; }" with
  | error e =>
      rw [hp] at hcompiles
      cases hcompiles
  | ok p =>
      rw [hp] at hcompiles
      have hboth := Option.some.inj hcompiles
      rw [Bool.and_eq_true, decide_eq_true_iff] at hboth
      obtain ⟨found, hrun, hsound, hcomplete⟩ :=
        run_iff_same_collapse hp hshape.fits ht (by decide)
      obtain ⟨b, hb⟩ := Option.isSome_iff_exists.mp (hcomplete hboth.1 ⟨_, hboth.2⟩)
      subst hb
      exact ⟨p, root, b, rfl, ht, by decide, hboth.1, hrun, (hsound b rfl).1⟩

end Matcher

end SnippetRewrite
