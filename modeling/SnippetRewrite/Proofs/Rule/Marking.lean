import Mathlib.Data.List.Induction
import SnippetRewrite.Proofs.Arena.TreeShape
import SnippetRewrite.Proofs.Parse.Accepted

/-!
How a snippet is marked. Its arena is edited in place while it is walked: the shells of statement
lists with one statement are freed, names inside variables are freed, and nodes are overwritten by
capture points. A law for each edit says which entries are owned before and after. Together they say
that the arena becomes that of the marked tree, that nothing else is left in it, and that the captures
are met in the order in which the marked tree has them.
-/

namespace SnippetRewrite

open Placement

namespace Label

def capturePoint? : Label → Option String
  | capture name => some name
  | _ => none

theorem eq_var_of_isVar {label : Label} (h : label.isVar = true) : label = .fixed .var := by
  unfold isVar at h
  split at h
  · rfl
  · cases h

/-- Only leaves stand for captures by themselves. -/
theorem arity?_of_captureName? {sigil : Char} {label : Label} {name : String}
    (h : label.captureName? sigil = some name) : label.arity? = some 0 := by
  obtain ⟨text, htext, -⟩ := Option.bind_eq_some_iff.mp h
  unfold nameText? at htext
  split at htext
  · rfl
  · cases htext

end Label

namespace Tree

variable {sigil : Char} {t : Tree} {name : String} {line : Nat} {label : Label}
  {slots : List (Option Tree)}

/-! ### Marked trees -/

theorem hasShape_unwrapSingle (h : t.hasShape = true) : t.unwrapSingle.hasShape = true := by
  induction t using unwrapSingle.induct with
  | case1 line only ih =>
      rw [unwrapSingle]
      exact ih ((hasShape_node.mp h).1 only List.mem_cons_self)
  | case2 t ht => rwa [unwrapSingle.eq_2 t ht]

theorem markSlots_eq_map (sigil : Char) (slots : List (Option Tree)) :
    markSlots sigil slots = slots.map (Option.map (markCaptures sigil)) := by
  induction slots with
  | nil => rfl
  | cons o rest ih => cases o <;> simp [markSlots, ih]

theorem markCaptures_of_some (h : t.captureName? sigil = some name) :
    t.markCaptures sigil = .node t.line (.capture name) [] := by
  obtain ⟨line, label, slots⟩ := t
  rw [markCaptures, h]
  rfl

theorem markCaptures_of_none (h : t.captureName? sigil = none) :
    t.markCaptures sigil = .node t.line t.label (markSlots sigil t.slots) := by
  obtain ⟨line, label, slots⟩ := t
  rw [markCaptures, h]
  rfl

theorem hasShape_markCaptures (sigil : Char) (h : t.hasShape = true) :
    (t.markCaptures sigil).hasShape = true := by
  induction t using induct with
  | node line label slots ih =>
      obtain ⟨hslots, harity⟩ := hasShape_node.mp h
      cases hname : captureName? sigil (.node line label slots) with
      | some name =>
          rw [markCaptures_of_some hname]
          exact hasShape_node.mpr ⟨by simp, fun n hn => by cases hn; rfl⟩
      | none =>
          rw [markCaptures_of_none hname, markSlots_eq_map]
          refine hasShape_node.mpr ⟨fun u hu => ?_, fun n hn => ?_⟩
          · obtain ⟨o, ho, heq⟩ := List.mem_map.mp hu
            obtain ⟨t, rfl, rfl⟩ := Option.map_eq_some_iff.mp heq
            exact ih t ho (hslots t ho)
          · rw [List.length_map]
            exact harity n hn

/-- Nodes other than variables stand for captures by themselves. -/
theorem captureName?_of_isVar (h : t.label.isVar = false) :
    t.captureName? sigil = t.label.captureName? sigil := by
  unfold captureName?
  split
  · cases h
  · rfl

/-! ### Capture points -/

def labels (t : Tree) : List Label :=
  t.fold fun _ label below => label :: below.flatMap (·.getD [])

def capturePoints (t : Tree) : List String :=
  t.labels.filterMap Label.capturePoint?

def capturePointsIn (slots : List (Option Tree)) : List String :=
  slots.flatMap (·.elim [] capturePoints)

theorem labels_node (line : Nat) (label : Label) (slots : List (Option Tree)) :
    (node line label slots).labels = label :: slots.flatMap (·.elim [] labels) := by
  rw [labels, fold_node, List.flatMap_map]
  congr 2
  funext o
  cases o <;> rfl

theorem capturePoints_node (line : Nat) (label : Label) (slots : List (Option Tree)) :
    (node line label slots).capturePoints =
      label.capturePoint?.toList ++ capturePointsIn slots := by
  rw [capturePoints, labels_node, List.filterMap_cons, List.filterMap_flatMap]
  have hslots : slots.flatMap (fun o => (o.elim [] labels).filterMap Label.capturePoint?) =
      capturePointsIn slots := by
    rw [capturePointsIn]
    congr 1
    funext o
    cases o <;> rfl
  rw [hslots]
  cases label.capturePoint? <;> rfl

@[simp] theorem capturePointsIn_nil : capturePointsIn [] = [] := rfl

@[simp] theorem capturePointsIn_none (rest : List (Option Tree)) :
    capturePointsIn (none :: rest) = capturePointsIn rest := rfl

@[simp] theorem capturePointsIn_some (t : Tree) (rest : List (Option Tree)) :
    capturePointsIn (some t :: rest) = t.capturePoints ++ capturePointsIn rest := rfl

@[simp] theorem capturePoints_fixed (kind : FixedKind) (slots : List (Option Tree)) (line : Nat) :
    (fixed kind slots line).capturePoints = capturePointsIn slots :=
  capturePoints_node _ _ _

@[simp] theorem capturePoints_decl (kind : DeclKind) (name : String) (flags : Nat)
    (slots : List (Option Tree)) (line : Nat) :
    (node line (.decl kind name flags) slots).capturePoints = capturePointsIn slots :=
  capturePoints_node _ _ _

@[simp] theorem capturePoints_list (kind : ListKind) (items : List Tree) (line : Nat) :
    (list kind items line).capturePoints = items.flatMap capturePoints := by
  rw [list, capturePoints_node, capturePointsIn, List.flatMap_map]
  rfl

@[simp] theorem capturePoints_name (text : String) (line : Nat) :
    (Tree.name text line).capturePoints = [] := rfl

theorem capturePointsIn_eq_nil :
    capturePointsIn slots = [] ↔ ∀ o ∈ slots, ∀ t ∈ o, t.capturePoints = [] := by
  rw [capturePointsIn, List.flatMap_eq_nil_iff]
  refine forall₂_congr fun o _ => ?_
  cases o <;> simp

/-- A tree of a program has no capture points. -/
theorem IsPart.capturePoints_eq_nil {part : Part} (h : t.IsPart sigil part) :
    t.capturePoints = [] := by
  induction h with
  | name | literal | result | var | captured => rfl
  | ofExpression _ ih | ofBlock _ ih => exact ih
  | _ => simp_all [capturePointsIn_eq_nil]

theorem capturePoints_unwrapSingle (t : Tree) : t.unwrapSingle.capturePoints = t.capturePoints := by
  induction t using unwrapSingle.induct with
  | case1 line only ih =>
      rw [unwrapSingle, ih, capturePoints_node, capturePointsIn_some]
      exact (List.append_nil _).symm
  | case2 t hne => rw [unwrapSingle.eq_2 t hne]

/-! ### Distinct names -/

mutual

/-- Adds the names of the capture points of a tree, in preorder, to those already seen. -/
def captureNames (seen : List String) : Tree → List String
  | .node _ (.capture name) _ => insertName seen name
  | .node _ _ slots => captureNamesIn seen slots

def captureNamesIn (seen : List String) : List (Option Tree) → List String
  | [] => seen
  | none :: rest => captureNamesIn seen rest
  | some t :: rest => captureNamesIn (captureNames seen t) rest

end

/-- The names of the capture points in the order of their first occurrence in preorder. -/
def captures (t : Tree) : List String :=
  t.captureNames []

theorem captureNames_node (seen : List String) (line : Nat) {label : Label}
    (hlabel : ∀ name, label ≠ .capture name) (slots : List (Option Tree)) :
    captureNames seen (node line label slots) = captureNamesIn seen slots := by
  cases label with
  | capture name => exact (hlabel name rfl).elim
  | _ => rw [captureNames]; simp

mutual

theorem captureNames_eq : (t : Tree) → (seen : List String) → t.hasShape = true →
    captureNames seen t = t.capturePoints.foldl insertName seen
  | .node line label slots, seen, h => by
    obtain ⟨hslots, harity⟩ := hasShape_node.mp h
    rw [capturePoints_node]
    rcases label.capture_or with ⟨name, rfl⟩ | hlabel
    · cases List.length_eq_zero_iff.mp (harity 0 rfl)
      rfl
    · rw [captureNames_node seen line hlabel, captureNamesIn_eq slots seen hslots]
      cases label with
      | capture name => exact (hlabel name rfl).elim
      | _ => rfl

theorem captureNamesIn_eq : (slots : List (Option Tree)) → (seen : List String) →
    (∀ t, some t ∈ slots → t.hasShape = true) →
    captureNamesIn seen slots = (capturePointsIn slots).foldl insertName seen
  | [], _, _ => rfl
  | none :: rest, seen, h => captureNamesIn_eq rest seen fun t ht => h t (List.mem_cons_of_mem _ ht)
  | some t :: rest, seen, h => by
    rw [captureNamesIn, captureNames_eq t seen (h t List.mem_cons_self),
      captureNamesIn_eq rest _ fun t ht => h t (List.mem_cons_of_mem _ ht), capturePointsIn_some,
      List.foldl_append]

end

end Tree

/-- Inserting names one after the other keeps the first occurrence of each. -/
theorem foldl_insertName (names : List String) : names.foldl insertName [] = names.eraseDups := by
  induction names using List.reverseRecOn with
  | nil => rfl
  | append_singleton names name ih =>
      rw [List.foldl_append, ih, List.eraseDups_append, List.foldl_cons, List.foldl_nil, insertName]
      by_cases hold : name ∈ names <;> simp [hold, List.removeAll, List.eraseDups_cons]

def Placement.wrapped? (l : Placement) : Option NodeId :=
  if l.label.isVar then l.slots.head?.join.map root else none

/-! ### Shells of lists -/

namespace Arena

variable {a : Arena} {es : List Entry} {l : Placement} {sigil : Char}

theorem Owns.releaseShallow {e : Entry} (h : a.Owns (e :: es)) : (a.releaseShallow e.id).Owns es := by
  have hlive := (h.stores e List.mem_cons_self).contains
  rw [Arena.releaseShallow, if_pos hlive]
  split
  · exact (h.withRoot none).vacate
  · exact h.vacate

/-- Entering statement lists with one statement frees these lists and nothing else, and makes the
statement inside the root. -/
theorem enterSingle_owns {fuel : Nat} (h : a.Owns l.entries) (hdepth : l.depth ≤ fuel) :
    (a.enterSingle fuel l.root).Owns l.unwrapSingle.entries ∧
      (a.enterSingle fuel l.root).root = some l.unwrapSingle.root := by
  induction fuel generalizing a l with
  | zero => exact absurd l.depth_pos (Nat.not_lt_of_le hdepth)
  | succ fuel ih =>
      obtain ⟨c, hc, -, -, hlabel, hused⟩ := h.holds_all.cell
      fun_cases Placement.unwrapSingle l with
      | case1 id line only =>
          obtain ⟨cellLine, label, slots⟩ := c
          cases hlabel
          have hslots := (slots_eq_used rfl).trans hused
          cases hslots
          rw [enterSingle, hc]
          refine ih ?_ (depth_le_of_mem List.mem_cons_self hdepth)
          rw [entries_eq] at h
          simpa [entriesIn, Placement.slots] using h.releaseShallow
      | case2 l hne =>
          have hkeep : a.enterSingle (fuel + 1) l.root = { a with root := some l.root } := by
            rw [enterSingle]
            split
            · rename_i line only hcell
              cases hc.symm.trans hcell
              obtain ⟨id, line, label, slots⟩ := l
              cases hlabel
              rw [← slots_eq_used rfl] at hused
              rcases slots with _ | ⟨_ | m, _ | ⟨o, rest⟩⟩ <;> cases hused
              exact (hne id _ m rfl).elim
            · rfl
          rw [hkeep]
          exact ⟨h.withRoot _, rfl⟩

/-! ### Nodes that stand for captures -/

/-- What a node stands for is read off its cell and, for a variable, off its first child. -/
theorem captureAt?_eq {c : Cell} (h : a.Holds l) (hc : a.cell? l.root = some c) :
    a.captureAt? sigil c = (l.tree.captureName? sigil).map fun name => (name, l.wrapped?) := by
  obtain ⟨d, hd, -, -, hlabel, hused⟩ := h.cell
  cases hc.symm.trans hd
  obtain ⟨id, line, label, slots⟩ := l
  rw [captureAt?, hlabel]
  cases hvar : label.isVar with
  | false =>
      have hother : (node id line label slots).tree.label.isVar = false := hvar
      rw [Tree.captureName?_of_isVar hother]
      simp [Placement.label, wrapped?, hvar]
  | true =>
      cases Label.eq_var_of_isVar hvar
      rw [Cell.child?, hused]
      rcases slots with _ | ⟨_ | k, rest⟩
      · rfl
      · rfl
      · obtain ⟨d, hd, -, -, hlabel, -⟩ := (h.below.holds List.mem_cons_self).cell
        have hchild : a.cell? k.root = some d := hd
        simp [idsOf, Placement.slots, hchild, hlabel, ← tree_label]
        rfl

/-- Freeing the name inside a variable leaves a node that stands for a capture without children. -/
theorem release_wrapped {name : String} (h : a.Owns (l.entries ++ es))
    (hroot : ∀ r, a.root = some r → r ∉ idsIn l.slots) (hshape : l.tree.hasShape = true)
    (hname : l.tree.captureName? sigil = some name) :
    a.Frees (l.wrapped?.elim a a.release) (⟨l.root, l.line, l.label, idsOf l.slots⟩ :: es) := by
  obtain ⟨id, line, label, slots⟩ := l
  cases hvar : label.isVar with
  | false =>
      have hother : (node id line label slots).tree.label.isVar = false := hvar
      rw [Tree.captureName?_of_isVar hother] at hname
      have hlen := (Tree.hasShape_node.mp hshape).2 0 (Label.arity?_of_captureName? hname)
      rw [length_treesIn] at hlen
      cases List.length_eq_zero_iff.mp hlen
      simp only [wrapped?, Placement.label, hvar]
      exact ⟨h, rfl, rfl⟩
  | true =>
      cases Label.eq_var_of_isVar hvar
      have hlen := (Tree.hasShape_node.mp hshape).2 1 rfl
      rw [length_treesIn] at hlen
      obtain ⟨o, rfl⟩ := List.length_eq_one_iff.mp hlen
      cases o with
      | none => cases hname
      | some k =>
          have hroot (r : NodeId) (hr : a.root = some r) : r ∉ k.ids := fun hmem =>
            hroot r hr (mem_idsIn.mpr ⟨k, List.mem_cons_self, hmem⟩)
          refine Arena.release_frees (h.perm ?_) hroot
          simp only [entries, entriesIn, List.append_nil]
          exact List.perm_middle.symm

end Arena

/-! ### The walk -/

namespace Marking

open SnippetRewrite.Tree

variable {m n : Marking} {es : List Entry} {l : Placement} {slots : List (Option Placement)}
  {sigil : Char}

/-- The second marking arises from the first by marking the tree `l`, which lies beside the entries
`es`. -/
def Marks (sigil : Char) (m n : Marking) (l : Placement) (es : List Entry) : Prop :=
  ∃ k : Placement, k.root = l.root ∧ k.tree = l.tree.markCaptures sigil ∧
    n.arena.Owns (k.entries ++ es) ∧ n.arena.root = m.arena.root ∧
    n.captures = k.tree.capturePoints.foldl insertName m.captures

/-- The same for trees in child slots. -/
def MarksIn (sigil : Char) (m n : Marking) (slots : List (Option Placement)) (es : List Entry) :
    Prop :=
  ∃ ks : List (Option Placement), idsOf ks = idsOf slots ∧
    treesIn ks = markSlots sigil (treesIn slots) ∧ n.arena.Owns (entriesIn ks ++ es) ∧
    n.arena.root = m.arena.root ∧
    n.captures = (capturePointsIn (treesIn ks)).foldl insertName m.captures

theorem foldl_marksIn {f : Marking → NodeId → Marking} (h : m.arena.Owns (entriesIn slots ++ es))
    (hf : ∀ l, some l ∈ slots → ∀ (n : Marking) fs, n.arena.Owns (l.entries ++ fs) →
      n.arena.root = m.arena.root → Marks sigil n (f n l.root) l fs) :
    MarksIn sigil m ((childIds slots).foldl f m) slots es := by
  induction slots generalizing m es with
  | nil => exact ⟨[], rfl, rfl, h, rfl, rfl⟩
  | cons o rest ih =>
      have hrest := fun l hl => hf l (List.mem_cons_of_mem _ hl)
      cases o with
      | none =>
          obtain ⟨ks, hids, htrees, howns, hroot, hcaptures⟩ := ih h hrest
          exact ⟨none :: ks, by simp [hids], by simp [treesIn, markSlots, htrees], howns, hroot,
            by simpa [treesIn] using hcaptures⟩
      | some l =>
          rw [entriesIn, List.append_assoc] at h
          obtain ⟨k, hk, htree, howns, hroot, hcaptures⟩ := hf l List.mem_cons_self m _ h rfl
          -- the marked child goes behind the others, which are still to be marked
          have hnext : (f m l.root).arena.Owns (entriesIn rest ++ (k.entries ++ es)) :=
            howns.perm (List.perm_append_comm_assoc _ _ _)
          obtain ⟨ks, hids, htrees, howns', hroot', hcaptures'⟩ := ih hnext
            fun l hl n fs hn hr => hrest l hl n fs hn (hr.trans hroot)
          refine ⟨some k :: ks, by simp [hids, hk], by simp [treesIn, markSlots, htrees, htree], ?_,
            hroot'.trans hroot, ?_⟩
          · rw [entriesIn, List.append_assoc]
            exact howns'.perm (List.perm_append_comm_assoc _ _ _)
          · rw [childIds_some, List.foldl_cons, hcaptures', hcaptures, treesIn, capturePointsIn_some,
              List.foldl_append]

theorem markWithin_marks {fuel : Nat} (h : m.arena.Owns (l.entries ++ es)) (hdepth : l.depth ≤ fuel)
    (hroot : ∀ r, m.arena.root = some r → r ∉ idsIn l.slots) (hshape : l.tree.hasShape = true)
    (hplain : l.tree.capturePoints = []) : Marks sigil m (markWithin sigil fuel m l.root) l es := by
  induction fuel generalizing m l es with
  | zero => exact absurd l.depth_pos (Nat.not_lt_of_le hdepth)
  | succ fuel ih =>
      obtain ⟨c, hc, -, hline, -, hused⟩ := h.holds.cell
      have hat : m.arena.captureAt? sigil c = _ := Arena.captureAt?_eq h.holds hc
      cases hname : l.tree.captureName? sigil with
      | some name =>
          have hfrees := Arena.release_wrapped h hroot hshape hname
          rw [markWithin, hc]
          simp only [hat, hname, Option.map_some]
          have hput := hfrees.owns.put (c := ⟨c.line, .capture name, []⟩) (Nat.le_refl 0)
          refine ⟨.node l.root c.line (.capture name) [], rfl, ?_, hput, hfrees.root, rfl⟩
          rw [markCaptures_of_some hname, tree_line, hline]
          rfl
      | none =>
          rw [markWithin, hc]
          simp only [hat, hname, Option.map_none]
          rw [Cell.children, hused, ← childIds]
          obtain ⟨id, line, label, slots⟩ := l
          rw [entries] at h
          obtain ⟨hbelow, -⟩ := hasShape_node.mp hshape
          rw [tree, capturePoints_node, List.append_eq_nil_iff, capturePointsIn_eq_nil] at hplain
          obtain ⟨ks, hids, htrees, howns, hkeep, hcaptures⟩ : MarksIn sigil m _ slots
              (⟨id, line, label, idsOf slots⟩ :: es) :=
            foldl_marksIn (f := markWithin sigil fuel) (h.perm List.perm_middle.symm)
              fun k hk n fs hn hsame => ih hn
                (depth_le_of_mem (l := .node id line label slots) hk hdepth)
                (fun r hr hmem => hroot r (hsame ▸ hr) (mem_idsIn.mpr ⟨k, hk, by
                  cases k
                  exact List.mem_cons_of_mem _ hmem⟩))
                (hbelow _ (tree_mem_treesIn hk)) (hplain.2 _ (tree_mem_treesIn hk) _ rfl)
          refine ⟨.node id line label ks, rfl, ?_, ?_, hkeep, ?_⟩
          · rw [markCaptures_of_none hname, tree, htrees]
            rfl
          · rw [entries, hids]
            exact howns.perm List.perm_middle
          · rw [tree, capturePoints_node, hplain.1, List.nil_append]
            exact hcaptures

end Marking

/-! ### Snippets -/

/-- The arena of a program becomes that of a snippet: nothing is left in it of what was freed. -/
theorem Arena.toSnippet_owns {a : Arena} {l : Placement} (sigil : Char) (h : a.Owns l.entries)
    (hroot : a.root = some l.root) (hshape : l.tree.hasShape = true)
    (hplain : l.tree.capturePoints = []) :
    ∃ k : Placement, k.tree = l.tree.unwrapSingle.markCaptures sigil ∧
      (a.toSnippet sigil).arena.Owns k.entries ∧ (a.toSnippet sigil).arena.root = some k.root ∧
      (a.toSnippet sigil).captures = k.tree.capturePoints.eraseDups := by
  obtain ⟨hentered, hunwrapped⟩ := enterSingle_owns h h.holds_all.depth_le_depthBound
  have hwalk : a.toSnippet sigil = Marking.markWithin sigil
      (a.enterSingle a.depthBound l.root).depthBound ⟨a.enterSingle a.depthBound l.root, []⟩
      l.unwrapSingle.root := by
    rw [toSnippet, hroot]
    simp only [hunwrapped]
  generalize a.enterSingle a.depthBound l.root = b at hentered hunwrapped hwalk
  have hbelow (r : NodeId) (hr : b.root = some r) : r ∉ idsIn l.unwrapSingle.slots := by
    cases hunwrapped.symm.trans hr
    exact hentered.holds_all.root_notMem
  have hshape := Tree.hasShape_unwrapSingle hshape
  rw [← Tree.capturePoints_unwrapSingle, ← tree_unwrapSingle] at hplain
  rw [← tree_unwrapSingle] at hshape ⊢
  rw [← List.append_nil l.unwrapSingle.entries] at hentered
  obtain ⟨k, hk, htree, howns, hkeep, hcaptures⟩ :
      Marking.Marks sigil ⟨b, []⟩ _ l.unwrapSingle [] :=
    Marking.markWithin_marks hentered hentered.holds.depth_le_depthBound hbelow hshape hplain
  rw [List.append_nil] at howns
  rw [hwalk]
  exact ⟨k, htree, howns, by rw [hkeep, hunwrapped, hk], hcaptures.trans (foldl_insertName _)⟩

namespace SnippetReader

variable {r : SnippetReader} {source : String} {s : Snippet}

theorem program_isPart {t : Tree} (h : r.program source = .ok t) :
    t.IsPart r.readerSigil .block := by
  simp only [program] at h
  split at h
  · rename_i hread
    cases h
    exact readProgram_isPart hread
  · split at h
    · rename_i hread
      cases h
      exact readProgram_isPart hread
    · cases h

/-- The arena and the captures of a snippet are those of its tree. -/
theorem toSnippet_ofTree {t : Tree} (h : r.program source = .ok t) :
    ∃ k : Placement, k.tree = t.unwrapSingle.markCaptures r.sigil ∧
      ((Arena.ofTree snippetOrigin t).toSnippet r.sigil).arena.Owns k.entries ∧
      ((Arena.ofTree snippetOrigin t).toSnippet r.sigil).arena.root = some k.root ∧
      ((Arena.ofTree snippetOrigin t).toSnippet r.sigil).captures =
        k.tree.capturePoints.eraseDups := by
  have hpart := program_isPart h
  obtain ⟨root, hshaped, htree⟩ := Arena.ofTree_treeShaped snippetOrigin hpart.hasShape
  obtain ⟨l, rfl, howns⟩ := hshaped.exists_owns
  cases htree.symm.trans howns.holds_all.tree_eq
  exact Arena.toSnippet_owns r.sigil howns hshaped.root_eq hpart.hasShape hpart.capturePoints_eq_nil

theorem eq_of_snippet (h : r.snippet source = .ok s) :
    ∃ t, r.program source = .ok t ∧ t.slots.isEmpty = false ∧
      s = ⟨source, ((Arena.ofTree snippetOrigin t).toSnippet r.sigil).arena,
        t.unwrapSingle.markCaptures r.sigil,
        ((Arena.ofTree snippetOrigin t).toSnippet r.sigil).captures⟩ := by
  simp only [snippet] at h
  split at h
  · cases h
  · rename_i t hprogram
    split at h
    · cases h
    · rename_i hslots
      cases h
      exact ⟨t, hprogram, eq_false_of_ne_true hslots, rfl⟩

/-- The arena of a snippet holds its tree and nothing else, and its captures are those of the tree. -/
theorem exists_placement (h : r.snippet source = .ok s) :
    ∃ k : Placement, k.tree = s.tree ∧ s.arena.Owns k.entries ∧ s.arena.root = some k.root ∧
      s.captures = s.tree.capturePoints.eraseDups := by
  obtain ⟨t, hprogram, -, rfl⟩ := eq_of_snippet h
  obtain ⟨k, htree, howns, hroot, hcaptures⟩ := toSnippet_ofTree hprogram
  exact ⟨k, htree, howns, hroot, htree ▸ hcaptures⟩

/-- What a snippet is made from. -/
theorem exists_program (h : r.snippet source = .ok s) :
    ∃ t, r.program source = .ok t ∧ t.slots.isEmpty = false ∧
      s.tree = t.unwrapSingle.markCaptures r.sigil ∧ s.captures = s.tree.captures := by
  obtain ⟨k, -, -, -, hcaptures⟩ := exists_placement h
  obtain ⟨t, hprogram, hslots, rfl⟩ := eq_of_snippet h
  have hshape := Tree.hasShape_markCaptures r.sigil
    (Tree.hasShape_unwrapSingle (program_isPart hprogram).hasShape)
  refine ⟨t, hprogram, hslots, rfl, hcaptures.trans ?_⟩
  rw [Tree.captures, Tree.captureNames_eq _ _ hshape, foldl_insertName]

end SnippetReader

end SnippetRewrite
