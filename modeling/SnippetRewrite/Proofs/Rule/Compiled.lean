import SnippetRewrite.Proofs.Rule.Collapse
import SnippetRewrite.Proofs.Rule.TreeInstance

/-!
Rules that compile. Both sides come from programs, so their nodes have the children that their kinds
ask for, also when captures have been marked; the pattern has every capture of the template. Hence a
template can be instantiated under whatever its pattern binds, and the instance comes from
substitution: it is the tree of the template, at the line of the instance, with the bound trees in
the places of the capture points.
-/

namespace SnippetRewrite

namespace Tree

/-! ### Instances -/

theorem subset_insertName (seen : List String) (name : String) : seen ⊆ insertName seen name := by
  rw [insertName]
  split
  · exact List.Subset.refl seen
  · exact List.subset_append_left seen [name]

mutual

theorem subset_captureNames : (t : Tree) → (seen : List String) → seen ⊆ captureNames seen t
  | .node line label slots, seen => by
    rcases label.capture_or with ⟨name, rfl⟩ | hlabel
    · exact subset_insertName seen name
    · rw [captureNames_node seen line hlabel]
      exact subset_captureNamesIn slots seen

theorem subset_captureNamesIn : (slots : List (Option Tree)) → (seen : List String) →
    seen ⊆ captureNamesIn seen slots
  | [], seen => List.Subset.refl seen
  | none :: rest, seen => subset_captureNamesIn rest seen
  | some t :: rest, seen =>
    List.Subset.trans (subset_captureNames t seen)
      (subset_captureNamesIn rest (captureNames seen t))

end

theorem mem_insertName (seen : List String) (name : String) : name ∈ insertName seen name := by
  rw [insertName]
  split
  · rename_i h
    exact List.contains_iff_mem.mp h
  · exact List.mem_append_right seen List.mem_cons_self

def atLine (line : Nat) (t : Tree) : Tree :=
  t.fold fun _ label slots => .node line label slots

theorem atLine_node (line line' : Nat) (label : Label) (slots : List (Option Tree)) :
    (node line' label slots).atLine line = node line label (slots.map (Option.map (atLine line))) :=
  fold_node _ line' label slots

variable {s : TreeBindings} {f : Assignment} {line : Nat}

mutual

/-- If all captures are bound, a template of the right shape has an instance, and it comes from
substitution. -/
theorem instantiate_eq_subst : (t : Tree) → t.hasShape = true →
    (∀ name ∈ t.captureOccurrences, s.get? name = some (f name)) →
    t.instantiate s line = .ok ((t.atLine line).subst f)
  | .node line' label slots, hshape, hbound => by
    obtain ⟨hslots, harity⟩ := hasShape_node.mp hshape
    rw [atLine_node]
    rcases label.capture_or with ⟨name, rfl⟩ | hcapture
    · have hname := hbound name (by simp [captureOccurrences])
      simp only [instantiate, hname, subst]
    · rw [subst_node f line hcapture]
      by_cases hleaf : ∃ kind value, label = .leaf kind value
      · obtain ⟨kind, value, rfl⟩ := hleaf
        cases List.length_eq_zero_iff.mp (harity 0 rfl)
        rw [instantiate]
        rfl
      · have hleaf' : ∀ kind value, label ≠ .leaf kind value :=
          fun kind value heq => hleaf ⟨kind, value, heq⟩
        rw [captureOccurrences_node line' hcapture] at hbound
        rw [Template.instantiate_node s line line' hleaf' hcapture,
          instantiateSlots_eq_subst slots hslots hbound, ok_bind, shaped]
        split
        · rename_i n hn
          rw [if_pos (by simpa using harity n hn)]
        · rfl

theorem instantiateSlots_eq_subst : (slots : List (Option Tree)) →
    (∀ t, some t ∈ slots → t.hasShape = true) →
    (∀ name ∈ captureOccurrencesIn slots, s.get? name = some (f name)) →
    instantiateSlots s line slots = .ok (substSlots f (slots.map (Option.map (atLine line))))
  | [], _, _ => rfl
  | none :: rest, hshape, hbound => by
    rw [instantiateSlots, instantiateSlots_eq_subst rest
      (fun t ht => hshape t (List.mem_cons_of_mem _ ht)) hbound]
    rfl
  | some t :: rest, hshape, hbound => by
    rw [captureOccurrencesIn] at hbound
    rw [instantiateSlots, instantiate_eq_subst t (hshape t List.mem_cons_self)
        fun name hname => hbound name (List.mem_append_left _ hname), ok_bind,
      instantiateSlots_eq_subst rest (fun t ht => hshape t (List.mem_cons_of_mem _ ht))
        fun name hname => hbound name (List.mem_append_right _ hname)]
    rfl

end

mutual

theorem captureOccurrences_subset : (t : Tree) → (seen : List String) →
    t.captureOccurrences ⊆ captureNames seen t
  | .node line label slots, seen => by
    rcases label.capture_or with ⟨name, rfl⟩ | hlabel
    · simpa [captureOccurrences, captureNames] using mem_insertName seen name
    · rw [captureOccurrences_node line hlabel, captureNames_node seen line hlabel]
      exact captureOccurrencesIn_subset slots seen

theorem captureOccurrencesIn_subset : (slots : List (Option Tree)) → (seen : List String) →
    captureOccurrencesIn slots ⊆ captureNamesIn seen slots
  | [], _ => List.nil_subset _
  | none :: rest, seen => captureOccurrencesIn_subset rest seen
  | some t :: rest, seen => by
    rw [captureOccurrencesIn, captureNamesIn]
    exact List.append_subset.mpr
      ⟨List.Subset.trans (captureOccurrences_subset t seen) (subset_captureNamesIn rest _),
        captureOccurrencesIn_subset rest _⟩

end

/-- A template of the right shape has an instance if all of its captures are bound. -/
theorem exists_instance (line : Nat) {t : Tree} (hshape : t.hasShape = true)
    (hbound : ∀ name ∈ t.captures, ∃ u, s.get? name = some u) :
    ∃ u, t.instantiate s line = .ok u := by
  refine ⟨_, instantiate_eq_subst (f := s.assignment) t hshape fun name hname => ?_⟩
  obtain ⟨u, hu⟩ := hbound name (captureOccurrences_subset t [] hname)
  rw [hu, TreeBindings.assignment_of_get? hu]

end Tree

/-! ### Compiling -/

/-- What registering two sides as a rule makes sure of. -/
structure Compiled (p : Pattern) (t : Template) : Prop where
  pattern_captures : p.captures = p.tree.captures
  template_captures : t.captures = t.tree.captures
  shaped : t.tree.hasShape = true
  covered : ∀ name ∈ t.captures, name ∈ p.captures

/-- Where the pattern of a rule matches, its template has an instance. -/
theorem Compiled.exists_instance {p : Pattern} {u : Template} {m : Matcher} {t : Tree}
    {b : TreeBindings} (h : Compiled p u) (hmatch : m.treeMatch true p.tree t [] = some b)
    (line : Nat) : ∃ v, u.tree.instantiate b line = .ok v := by
  have hpattern {name : String} (hname : name ∈ u.tree.captures) : name ∈ p.tree.captures :=
    h.pattern_captures ▸ h.covered name (h.template_captures ▸ hname)
  exact Tree.exists_instance line h.shaped fun name hname =>
    ⟨_, Matcher.get?_of_treeMatch hmatch (hpattern hname)⟩

namespace SnippetReader

variable {r : SnippetReader}

theorem snippet_shaped {source : String} {s : Snippet} (h : r.snippet source = .ok s) :
    s.tree.hasShape = true ∧ s.captures = s.tree.captures := by
  obtain ⟨t, hprogram, -, htree, hcaptures⟩ := exists_program h
  have hshape := (program_isPart hprogram).hasShape
  exact ⟨htree ▸ Tree.hasShape_markCaptures r.sigil (Tree.hasShape_unwrapSingle hshape), hcaptures⟩

/-- Both sides of a rule that compiles are snippets. -/
theorem exists_snippets {source replacement : String} {p : Pattern} {u : Template}
    (h : r.rule source replacement = .ok (p, u)) :
    r.snippet source = .ok p.toSnippet ∧ r.snippet replacement = .ok u.toSnippet := by
  obtain ⟨p', hp, h⟩ := bind_eq_ok.mp h
  obtain ⟨u', hu, h⟩ := bind_eq_ok.mp h
  obtain ⟨x, hx, hp⟩ := bind_eq_ok.mp hp
  obtain ⟨y, hy, hu⟩ := bind_eq_ok.mp hu
  cases hu
  split at hp
  · cases hp
  · cases hp
    split at h
    · cases h
    · cases h
      exact ⟨hx, hy⟩

theorem source_of_snippet {source : String} {s : Snippet} (h : r.snippet source = .ok s) :
    s.source = source := by
  obtain ⟨-, -, -, rfl⟩ := eq_of_snippet h
  rfl

theorem compiled_of_rule {source replacement : String} {p : Pattern} {t : Template}
    (h : r.rule source replacement = .ok (p, t)) : Compiled p t := by
  obtain ⟨p', hp, h⟩ := bind_eq_ok.mp h
  obtain ⟨t', ht, h⟩ := bind_eq_ok.mp h
  obtain ⟨s, hs, ht⟩ := bind_eq_ok.mp ht
  cases ht
  obtain ⟨hshape, hcaptures⟩ := snippet_shaped hs
  split at h
  · cases h
  · rename_i hfind
    cases h
    refine ⟨captures_eq hp, hcaptures, hshape, fun name hname => ?_⟩
    simpa using List.find?_eq_none.mp hfind name hname

end SnippetReader

end SnippetRewrite
