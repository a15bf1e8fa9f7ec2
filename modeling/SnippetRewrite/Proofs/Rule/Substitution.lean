import SnippetRewrite.Proofs.Rule.Marking
import SnippetRewrite.Proofs.Rule.TreeMatch

/-!
Matching and substitution, for a matcher to which no list is transparent. A pattern matches a tree
if and only if trees can be assigned to its captures that make it equal to that tree; the matcher
finds the assignment, which is the only one. Both directions carry a list of bindings made before:
the matcher only adds to it, and an assignment that agrees with what is bound after a part of the
pattern agrees with what was bound before.
-/

namespace SnippetRewrite

abbrev Assignment := String → Tree

namespace Tree

mutual

/-- The tree with an assigned tree in the place of each capture point. -/
def subst (f : Assignment) : Tree → Tree
  | .node _ (.capture name) _ => f name
  | .node line label slots => .node line label (substSlots f slots)

def substSlots (f : Assignment) : List (Option Tree) → List (Option Tree)
  | [] => []
  | none :: rest => none :: substSlots f rest
  | some t :: rest => some (subst f t) :: substSlots f rest

end

theorem subst_node (f : Assignment) (line : Nat) {label : Label}
    (hlabel : ∀ name, label ≠ .capture name) (slots : List (Option Tree)) :
    (node line label slots).subst f = node line label (substSlots f slots) := by
  cases label with
  | capture name => exact (hlabel name rfl).elim
  | _ => rw [subst]; simp

@[simp] theorem length_substSlots (f : Assignment) (slots : List (Option Tree)) :
    (substSlots f slots).length = slots.length := by
  induction slots with
  | nil => rfl
  | cons o rest ih => cases o <;> simp [substSlots, ih]

end Tree

namespace TreeBindings

variable {b c d : TreeBindings} {f : Assignment} {name : String} {t : Tree}

theorem get?_append (b c : TreeBindings) (name : String) :
    get? (b ++ c) name = (b.get? name).or (c.get? name) := by
  rw [get?, List.find?_append, Option.map_or]
  rfl

theorem get?_singleton (name other : String) (t : Tree) :
    get? [(name, t)] other = if name = other then some t else none := by
  by_cases h : name = other <;> simp [get?, h]

theorem mem_of_get? (h : b.get? name = some t) : (name, t) ∈ b := by
  obtain ⟨entry, hentry, rfl⟩ := Option.map_eq_some_iff.mp h
  have hname : entry.1 = name := by simpa using List.find?_some hentry
  have hmem := List.mem_of_find?_eq_some hentry
  rwa [← hname]

theorem get?_eq_none : b.get? name = none ↔ name ∉ b.map (·.1) := by
  rw [get?, Option.map_eq_none_iff, List.find?_eq_none]
  constructor
  · intro h hmem
    obtain ⟨entry, hentry, rfl⟩ := List.mem_map.mp hmem
    simpa using h entry hentry
  · intro h entry hentry
    have hne : entry.1 ≠ name := fun heq => h (heq ▸ List.mem_map_of_mem hentry)
    simpa using hne

/-- The assignment gives each name a tree equal to the bound one. -/
def Agrees (b : TreeBindings) (f : Assignment) : Prop :=
  ∀ name t, b.get? name = some t → (f name).same t = true

def assignment (b : TreeBindings) : Assignment :=
  fun name => (b.get? name).getD default

theorem assignment_of_get? (h : b.get? name = some t) : b.assignment name = t := by
  rw [assignment, h, Option.getD_some]

theorem agrees_assignment (hclean : ∀ name t, b.get? name = some t → t.hasNan = false) :
    b.Agrees b.assignment := by
  intro name t ht
  rw [assignment_of_get? ht, Tree.same_self, hclean name t ht]
  rfl

/-- Bindings are kept, and no tree with a NaN is added. -/
structure Extends (b c : TreeBindings) : Prop where
  old : ∀ name t, b.get? name = some t → c.get? name = some t
  clean : (∀ name t, b.get? name = some t → t.hasNan = false) →
    ∀ name t, c.get? name = some t → t.hasNan = false

theorem Extends.refl (b : TreeBindings) : b.Extends b := ⟨fun _ _ h => h, fun h => h⟩

theorem Extends.trans (h : b.Extends c) (h' : c.Extends d) : b.Extends d where
  old name t hb := h'.old name t (h.old name t hb)
  clean hb := h'.clean (h.clean hb)

theorem Extends.agrees (h : b.Extends c) (hc : c.Agrees f) : b.Agrees f :=
  fun name t hb => hc name t (h.old name t hb)

theorem Extends.append (name : String) (ht : t.hasNan = false) : b.Extends (b ++ [(name, t)]) where
  old other u hu := by rw [get?_append, hu, Option.some_or]
  clean hb other u hu := by
    rw [get?_append, get?_singleton] at hu
    cases hother : b.get? other with
    | some v =>
        rw [hother, Option.some_or] at hu
        cases hu
        exact hb other u hother
    | none =>
        rw [hother, Option.none_or] at hu
        split at hu
        · cases hu
          exact ht
        · cases hu

end TreeBindings

namespace Matcher

open SnippetRewrite.Tree

/-- The matcher to which no list is transparent. -/
def plain : Matcher := ⟨false⟩

/-! Equations of the plain matcher. -/

theorem plain_capture (direct : Bool) (line : Nat) (name : String) (slots : List (Option Tree))
    (t : Tree) (b : TreeBindings) :
    plain.treeMatch direct (.node line (.capture name) slots) t b = bindTree b name t := by
  rw [treeMatch_capture]
  cases direct <;> rfl

theorem plain_node (direct : Bool) (line : Nat) {label : Label}
    (hlabel : ∀ name, label ≠ .capture name) (slots : List (Option Tree)) (t : Tree)
    (b : TreeBindings) :
    plain.treeMatch direct (.node line label slots) t b =
      if label.same t.label ∧ slots.length = t.slots.length then
        plain.treeMatchSlots slots t.slots b
      else none := by
  rw [treeMatch_node plain direct line hlabel]
  rfl

/-! ### Soundness -/

/-- What a match says: the pattern becomes equal to the target under each assignment that agrees
with the bindings after it. -/
structure Sound (b c : TreeBindings) (instances : Assignment → Prop) : Prop where
  kept : b.Extends c
  instances : ∀ f, c.Agrees f → instances f

theorem bindTree_sound {name : String} {t : Tree} {b c : TreeBindings} (ht : t.hasNan = false)
    (h : bindTree b name t = some c) : Sound b c fun f => (f name).same t = true := by
  simp only [bindTree] at h
  cases hb : b.get? name with
  | none =>
      rw [hb] at h
      cases h
      refine ⟨.append name ht, fun f hf => hf name t ?_⟩
      simp [TreeBindings.get?_append, hb, TreeBindings.get?_singleton]
  | some u =>
      simp only [hb] at h
      split at h
      · rename_i hsame
        cases h
        exact ⟨.refl b, fun f hf => same_trans _ _ _ (hf name u hb) hsame⟩
      · cases h

mutual

theorem treeMatch_sound (direct : Bool) : (p t : Tree) → (b c : TreeBindings) → t.hasNan = false →
    plain.treeMatch direct p t b = some c → Sound b c fun f => (p.subst f).same t = true
  | .node line label slots, .node line' label' slots', b, c, ht, h => by
    rcases label.capture_or with ⟨name, rfl⟩ | hlabel
    · rw [plain_capture] at h
      exact bindTree_sound ht h
    · rw [plain_node direct line hlabel] at h
      split at h
      · rename_i hsame
        simp only [hasNan, Bool.or_eq_false_iff] at ht
        obtain ⟨hext, hslots⟩ := treeMatchSlots_sound slots slots' b c ht.2 h
        refine ⟨hext, fun f hf => ?_⟩
        rw [subst_node f line hlabel, Tree.same, Bool.and_eq_true]
        exact ⟨hsame.1, hslots f hf⟩
      · cases h

theorem treeMatchSlots_sound : (ps ts : List (Option Tree)) → (b c : TreeBindings) →
    hasNanIn ts = false → plain.treeMatchSlots ps ts b = some c →
    Sound b c fun f => sameSlots (substSlots f ps) ts = true
  | [], [], b, c, _, h => by
    cases h
    exact ⟨.refl b, fun _ _ => rfl⟩
  | none :: ps, none :: ts, b, c, ht, h => by
    obtain ⟨hext, hslots⟩ := treeMatchSlots_sound ps ts b c ht h
    exact ⟨hext, hslots⟩
  | some p :: ps, some t :: ts, b, c, ht, h => by
    simp only [hasNanIn, Bool.or_eq_false_iff] at ht
    obtain ⟨d, hd, h⟩ := Option.bind_eq_some_iff.mp h
    obtain ⟨hext, hfirst⟩ := treeMatch_sound true p t b d ht.1 hd
    obtain ⟨hext', hrest⟩ := treeMatchSlots_sound ps ts d c ht.2 h
    refine ⟨hext.trans hext', fun f hf => ?_⟩
    rw [substSlots, sameSlots, Bool.and_eq_true]
    exact ⟨hfirst f (hext'.agrees hf), hrest f hf⟩
  | [], none :: _, _, _, _, h => by simp [treeMatchSlots] at h
  | [], some _ :: _, _, _, _, h => by simp [treeMatchSlots] at h
  | none :: _, [], _, _, _, h => by simp [treeMatchSlots] at h
  | none :: _, some _ :: _, _, _, _, h => by simp [treeMatchSlots] at h
  | some _ :: _, [], _, _, _, h => by simp [treeMatchSlots] at h
  | some _ :: _, none :: _, _, _, _, h => by simp [treeMatchSlots] at h

end

/-! ### Completeness -/

/-- Bindings that a match finds for an assignment: the bound trees are equal to the assigned ones,
and the names stand in the order in which they were first met. -/
structure Finds (f : Assignment) (names : List String) (b : TreeBindings) : Prop where
  equal : ∀ entry ∈ b, entry.2.same (f entry.1) = true
  names : b.map (·.1) = names

theorem bindTree_complete {f : Assignment} {names : List String} {b : TreeBindings} {name : String}
    {t : Tree} (hb : Finds f names b) (h : (f name).same t = true) :
    ∃ c, bindTree b name t = some c ∧ Finds f (insertName names name) c := by
  cases hget : b.get? name with
  | none =>
      have hnew := TreeBindings.get?_eq_none.mp hget
      rw [hb.names] at hnew
      refine ⟨b ++ [(name, t)], by simp only [bindTree, hget], fun entry hentry => ?_, ?_⟩
      · rcases List.mem_append.mp hentry with hentry | hentry
        · exact hb.equal entry hentry
        · rw [List.mem_singleton.mp hentry]
          exact same_symm h
      · simp [insertName, hnew, hb.names]
  | some u =>
      have hmem := TreeBindings.mem_of_get? hget
      have hsame : u.same t = true := same_trans _ _ _ (hb.equal _ hmem) h
      have hold : name ∈ names := hb.names ▸ List.mem_map_of_mem hmem
      exact ⟨b, by simp only [bindTree, hget, hsame, if_true], hb.equal, by
        simp [insertName, hold, hb.names]⟩

mutual

theorem treeMatch_complete {f : Assignment} (direct : Bool) : (p t : Tree) →
    (names : List String) → (b : TreeBindings) → Finds f names b → (p.subst f).same t = true →
    ∃ c, plain.treeMatch direct p t b = some c ∧ Finds f (captureNames names p) c
  | .node line label slots, .node line' label' slots', names, b, hb, h => by
    rcases label.capture_or with ⟨name, rfl⟩ | hlabel
    · rw [plain_capture]
      exact bindTree_complete hb h
    · rw [subst_node f line hlabel, Tree.same, Bool.and_eq_true] at h
      have hlen : slots.length = slots'.length := by
        simpa using length_eq_of_sameSlots h.2
      rw [plain_node direct line hlabel, captureNames_node names line hlabel, if_pos ⟨h.1, hlen⟩]
      exact treeMatchSlots_complete slots slots' names b hb h.2

theorem treeMatchSlots_complete {f : Assignment} : (ps ts : List (Option Tree)) →
    (names : List String) → (b : TreeBindings) → Finds f names b →
    sameSlots (substSlots f ps) ts = true →
    ∃ c, plain.treeMatchSlots ps ts b = some c ∧ Finds f (captureNamesIn names ps) c
  | [], [], _, b, hb, _ => ⟨b, rfl, hb⟩
  | none :: ps, none :: ts, names, b, hb, h => treeMatchSlots_complete ps ts names b hb h
  | some p :: ps, some t :: ts, names, b, hb, h => by
    rw [substSlots, sameSlots, Bool.and_eq_true] at h
    obtain ⟨c, hc, hfirst⟩ := treeMatch_complete true p t names b hb h.1
    obtain ⟨d, hd, hrest⟩ := treeMatchSlots_complete ps ts _ c hfirst h.2
    exact ⟨d, by rw [treeMatchSlots, hc, Option.bind_some, hd], hrest⟩
  | [], none :: _, _, _, _, h => by simp [substSlots, sameSlots] at h
  | [], some _ :: _, _, _, _, h => by simp [substSlots, sameSlots] at h
  | none :: _, [], _, _, _, h => by simp [substSlots, sameSlots] at h
  | none :: _, some _ :: _, _, _, _, h => by simp [substSlots, sameSlots] at h
  | some _ :: _, [], _, _, _, h => by simp [substSlots, sameSlots] at h
  | some _ :: _, none :: _, _, _, _, h => by simp [substSlots, sameSlots] at h

end

/-! ### Patterns -/

end Matcher

theorem SnippetReader.captures_eq {r : SnippetReader} {source : String} {p : Pattern}
    (h : r.pattern source = .ok p) : p.captures = p.tree.captures := by
  obtain ⟨s, hs, h⟩ := bind_eq_ok.mp h
  have hp : p = ⟨s⟩ := by
    split at h
    · cases h
    · cases h
      rfl
  subst hp
  obtain ⟨-, -, -, -, hcaptures⟩ := exists_program hs
  exact hcaptures

namespace Matcher

open SnippetRewrite.Tree

theorem exists_assignment {p t : Tree} {c : TreeBindings} (ht : t.hasNan = false)
    (h : plain.treeMatch true p t [] = some c) : ∃ f, (p.subst f).same t = true := by
  obtain ⟨hkept, hinstances⟩ := treeMatch_sound true p t [] c ht h
  have hclean := hkept.clean fun name u (hu : none = some u) => by cases hu
  exact ⟨c.assignment, hinstances _ (TreeBindings.agrees_assignment hclean)⟩

/-- Matching is sound and complete for substitution. For a compiled pattern and a tree without NaN,
a plain matcher succeeds exactly if some assignment to the captures makes the pattern equal to the
tree. The assignment is unique on the captures; they are bound in the order of the pattern, each to
a node of the tree under which stands what is assigned. -/
theorem run_iff_exists_subst {r : SnippetReader} {source : String} {p : Pattern} {a : Arena}
    {id : NodeId} {t : Tree} (hp : r.pattern source = .ok p) (ha : a.Fits) (ht : a.tree id = .ok t)
    (hnan : t.hasNan = false) :
    ∃ found, plain.run p a id = .ok found ∧
      (found.isSome ↔ ∃ f, (p.tree.subst f).same t = true) ∧
      (∀ f g, (p.tree.subst f).same t = true → (p.tree.subst g).same t = true →
        ∀ name ∈ p.captures, (f name).same (g name) = true) ∧
      ∀ b, found = some b → b.map (·.1) = p.captures ∧
        ∀ f, (p.tree.subst f).same t = true → ∀ entry ∈ b,
          (∃ path, a.follow id path = some entry.2) ∧
            ∃ u, a.tree entry.2 = .ok u ∧ u.same (f entry.1) = true := by
  obtain ⟨l, hl, rfl, rfl⟩ := Arena.exists_holds_of_tree ha ht
  have hfinds {f : Assignment} (hf : (p.tree.subst f).same l.tree = true) :
      ∃ c, plain.treeMatch true p.tree l.tree [] = some c ∧ Finds f p.captures c := by
    rw [SnippetReader.captures_eq hp]
    exact treeMatch_complete true p.tree l.tree [] [] ⟨by simp, rfl⟩ hf
  -- all assignments agree with the bindings, since the matcher finds the same for each of them
  have hunique (f g : Assignment) (hf : (p.tree.subst f).same l.tree = true)
      (hg : (p.tree.subst g).same l.tree = true) (name : String) (hname : name ∈ p.captures) :
      (f name).same (g name) = true := by
    obtain ⟨c, hc, hcf⟩ := hfinds hf
    obtain ⟨d, hd, hdg⟩ := hfinds hg
    cases hc.symm.trans hd
    obtain ⟨entry, hentry, rfl⟩ := List.mem_map.mp (hcf.names ▸ hname)
    exact same_trans _ _ _ (same_symm (hcf.equal entry hentry)) (hdg.equal entry hentry)
  cases hmatch : plain.treeMatch true p.tree l.tree [] with
  | none =>
      refine ⟨none, run_of_none hl hmatch, ⟨by simp, ?_⟩, hunique, by simp⟩
      rintro ⟨f, hf⟩
      obtain ⟨c, hc, -⟩ := hfinds hf
      rw [hmatch] at hc
      cases hc
  | some c =>
      obtain ⟨b, hrun, hbound⟩ := run_of_some hl hmatch
      obtain ⟨f₀, hf₀⟩ := exists_assignment hnan hmatch
      refine ⟨some b, hrun, ⟨fun _ => ⟨f₀, hf₀⟩, fun _ => rfl⟩, hunique, ?_⟩
      rintro _ ⟨⟩
      have hassigned (f : Assignment) (hf : (p.tree.subst f).same l.tree = true) :
          Finds f p.captures c := by
        obtain ⟨d, hd, hdf⟩ := hfinds hf
        cases hmatch.symm.trans hd
        exact hdf
      refine ⟨hbound.names_eq.trans (hassigned f₀ hf₀).names, fun f hf entry hentry => ?_⟩
      obtain ⟨u, hu, hid, m, hm, hroot, rfl⟩ := hbound.exists_of_mem hentry
      refine ⟨Arena.exists_follow hl hid, m.tree, hroot ▸ hm.tree_eq, ?_⟩
      exact (hassigned f hf).equal _ hu

/-- The pattern `$x + $x` matches the tree of `1 + 1`: assigning `1` to `x` makes them equal. -/
theorem run_iff_exists_subst_sum :
    ∃ p id t b, (SnippetReader.ofSigil defaultSigil).pattern "$x + $x" = .ok p ∧
      (Arena.ofTree "unit" t).tree id = .ok t ∧ t.hasNan = false ∧
      plain.run p (.ofTree "unit" t) id = .ok (some b) ∧ b.map (·.1) = p.captures := by
  obtain ⟨root, hshape, ht⟩ := Arena.ofTree_treeShaped "unit"
    (t := .fixed (.binary .add) [some (.literal (.int 1) 1), some (.literal (.int 1) 1)] 1)
    (by decide)
  have hcompiles : (((SnippetReader.ofSigil defaultSigil).pattern "$x + $x").toOption.map fun p =>
      (p.tree.subst fun _ => .literal (.int 1) 1).same
        (.fixed (.binary .add) [some (.literal (.int 1) 1), some (.literal (.int 1) 1)] 1)) =
      some true := by
    decide +kernel
  cases hp : (SnippetReader.ofSigil defaultSigil).pattern "$x + $x" with
  | error e =>
      rw [hp] at hcompiles
      cases hcompiles
  | ok p =>
      rw [hp] at hcompiles
      obtain ⟨found, hrun, hiff, -, hbound⟩ := run_iff_exists_subst hp hshape.fits ht (by decide)
      obtain ⟨b, hb⟩ := Option.isSome_iff_exists.mp (hiff.mpr ⟨_, Option.some.inj hcompiles⟩)
      subst hb
      exact ⟨p, root, _, b, rfl, ht, by decide, hrun, (hbound b rfl).1⟩

end Matcher

end SnippetRewrite
