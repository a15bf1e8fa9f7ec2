import SnippetRewrite.Proofs.Rule.Substitution

/-!
The names that a match binds. Whatever lists are transparent, a match that succeeds has gone through
every node of the pattern, so it binds exactly the captures of the pattern, in the order in which
these first occur.
-/

namespace SnippetRewrite

namespace Matcher

open SnippetRewrite.Tree

theorem bindTree_names {b c : TreeBindings} {name : String} {t : Tree}
    (h : bindTree b name t = some c) : c.map (·.1) = insertName (b.map (·.1)) name := by
  simp only [bindTree] at h
  cases hb : b.get? name with
  | none =>
      have hnew := TreeBindings.get?_eq_none.mp hb
      rw [hb] at h
      cases h
      simp [insertName, hnew]
  | some u =>
      have hold : name ∈ b.map (·.1) := List.mem_map_of_mem (TreeBindings.mem_of_get? hb)
      simp only [hb] at h
      split at h
      · cases h
        simp [insertName, hold]
      · cases h

mutual

theorem treeMatch_names (m : Matcher) (direct : Bool) : (p t : Tree) → (b c : TreeBindings) →
    m.treeMatch direct p t b = some c → c.map (·.1) = captureNames (b.map (·.1)) p
  | .node line label slots, t, b, c, h => by
    rcases label.capture_or with ⟨name, rfl⟩ | hlabel
    · rw [treeMatch_capture] at h
      exact bindTree_names h
    · rw [treeMatch_node m direct line hlabel] at h
      rw [captureNames_node _ line hlabel]
      split at h
      · exact treeMatchOnly_names m slots t b c h
      · split at h
        · exact treeMatchSlots_names m slots _ b c h
        · cases h

theorem treeMatchOnly_names (m : Matcher) : (slots : List (Option Tree)) → (t : Tree) →
    (b c : TreeBindings) → m.treeMatchOnly slots t b = some c →
    c.map (·.1) = captureNamesIn (b.map (·.1)) slots
  | [some only], t, b, c, h => treeMatch_names m false only t b c h
  | [], _, _, _, h => by cases h
  | [none], _, _, _, h => by cases h
  | some _ :: _ :: _, _, _, _, h => by cases h
  | none :: _ :: _, _, _, _, h => by cases h

theorem treeMatchSlots_names (m : Matcher) : (ps ts : List (Option Tree)) → (b c : TreeBindings) →
    m.treeMatchSlots ps ts b = some c → c.map (·.1) = captureNamesIn (b.map (·.1)) ps
  | [], [], _, _, h => by
    cases h
    rfl
  | none :: ps, none :: ts, b, c, h => treeMatchSlots_names m ps ts b c h
  | some p :: ps, some t :: ts, b, c, h => by
    obtain ⟨d, hd, h⟩ := Option.bind_eq_some_iff.mp h
    have hrest := treeMatchSlots_names m ps ts d c h
    rw [hrest, treeMatch_names m true p t b d hd, captureNamesIn]
  | [], none :: _, _, _, h => by cases h
  | [], some _ :: _, _, _, h => by cases h
  | none :: _, [], _, _, h => by cases h
  | none :: _, some _ :: _, _, _, h => by cases h
  | some _ :: _, [], _, _, h => by cases h
  | some _ :: _, none :: _, _, _, h => by cases h

end

/-- A match binds every capture of the pattern. -/
theorem get?_of_treeMatch {m : Matcher} {direct : Bool} {p t : Tree} {b : TreeBindings}
    {name : String} (h : m.treeMatch direct p t [] = some b) (hname : name ∈ p.captures) :
    b.get? name = some (b.assignment name) := by
  have hbound : name ∈ b.map (·.1) := by
    rw [treeMatch_names m direct p t [] b h]
    exact hname
  cases hget : b.get? name with
  | none => exact absurd hbound (TreeBindings.get?_eq_none.mp hget)
  | some u => rw [TreeBindings.assignment_of_get? hget]

end Matcher

end SnippetRewrite
