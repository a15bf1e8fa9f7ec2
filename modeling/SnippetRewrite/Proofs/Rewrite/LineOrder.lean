import SnippetRewrite.Proofs.Parse.ErrorPlace
import SnippetRewrite.Proofs.Parse.RoundTrip
import SnippetRewrite.Proofs.Rewrite.Shrinking
import SnippetRewrite.Proofs.Rule.Overlap

/-!
The lines of a unit during rewriting. In a unit that was read from a text no node stands on a later
line than one of its children. An instance of a template keeps this up: its own nodes stand on the
line of the node that it replaces, and the subtrees that it copies come from below that node. So the
order holds in every state of every pass, and the line that a trace entry or an error names is the
smallest one in the subtree that it is about.
-/

namespace SnippetRewrite

open Placement

/-! ### Trees -/

namespace Tree

variable {low high line : Nat} {slots : List (Option Tree)}

theorem hereditary_linesWithin (low high : Nat) : Hereditary (LinesWithin low high) := by
  rintro line label slots (⟨hlow, -, hslots⟩) t ht
  exact (hslots _ ht t rfl).widen hlow (Nat.le_refl _)

variable {s : TreeBindings}

mutual

/-- An instance has lines in order if it stands on a line that the bound trees do not precede. -/
theorem linesWithin_instance (hline : line ≤ high) (hs : ∀ x ∈ s, x.2.LinesWithin line high) :
    (u : Tree) → (v : Tree) → u.instantiate s line = .ok v → v.LinesWithin line high
  | .node line' label slots, v, h => by
    rcases instance_cases h with ⟨name, rfl, hget⟩ | ⟨kind, value, rfl, rfl⟩ | ⟨-, ws, hws, rfl⟩
    · exact hs _ (TreeBindings.mem_of_get? hget)
    · exact .node (Nat.le_refl _) hline (by simp)
    · exact .node (Nat.le_refl _) hline (linesWithin_instances hline hs slots ws hws)

theorem linesWithin_instances (hline : line ≤ high) (hs : ∀ x ∈ s, x.2.LinesWithin line high) :
    (us vs : List (Option Tree)) → instantiateSlots s line us = .ok vs →
      ∀ o ∈ vs, ∀ t ∈ o, t.LinesWithin line high
  | [], vs, h => by
    cases h
    simp
  | none :: us, vs, h => by
    obtain ⟨ws, hws, h⟩ := bind_eq_ok.mp h
    cases h
    simpa using linesWithin_instances hline hs us ws hws
  | some u :: us, vs, h => by
    obtain ⟨v, hv, h⟩ := bind_eq_ok.mp h
    obtain ⟨ws, hws, h⟩ := bind_eq_ok.mp h
    cases h
    simpa using ⟨linesWithin_instance hline hs u v hv, linesWithin_instances hline hs us ws hws⟩

end

end Tree

/-! ### Placements -/

namespace Placement

variable {low high : Nat} {l : Placement}

/-- The children of a node with lines in order, whose lines begin at that of the node. -/
theorem linesWithin_child (h : l.tree.LinesWithin low high) {m : Placement} (hm : some m ∈ l.slots) :
    m.tree.LinesWithin l.line high := by
  obtain ⟨id, line, label, slots⟩ := l
  cases h with
  | node _ _ hslots =>
      exact hslots (some m.tree) (tree_mem_treesIn hm) m.tree rfl

theorem linesWithin_of_children {id : NodeId} {line : Nat} {label : Label}
    {slots : List (Option Placement)} (hlow : low ≤ line) (hhigh : line ≤ high)
    (h : ∀ m, some m ∈ slots → m.tree.LinesWithin line high) :
    (node id line label slots).tree.LinesWithin low high := by
  refine .node hlow hhigh fun o ho t ht => ?_
  subst ht
  obtain ⟨m, hm, rfl⟩ := exists_of_mem_treesIn ho
  exact h m hm

/-- Each node of a placement is the root of a part of it. -/
theorem exists_part (h : l.tree.LinesWithin low high) {id : NodeId} (hid : id ∈ l.ids) :
    ∃ m : Placement, m.root = id ∧ m.entries ⊆ l.entries ∧ m.tree.LinesWithin low high := by
  induction l using induct generalizing low with
  | node root line label slots ih =>
      rcases List.mem_cons.mp hid with rfl | hid
      · exact ⟨_, rfl, List.Subset.refl _, h⟩
      · obtain ⟨c, hc, hidc⟩ := mem_idsIn.mp hid
        have hbelow := linesWithin_child h hc
        obtain ⟨m, hm, hsub, hlines⟩ := ih c hc hbelow hidc
        refine ⟨m, hm, fun e he => ?_, hlines.widen ?_ (Nat.le_refl _)⟩
        · exact List.mem_cons_of_mem _ (mem_entriesIn.mpr ⟨c, hc, hsub he⟩)
        · exact h.line_ge

/-- No node of a placement with lines in order precedes its root. -/
theorem line_le_of_mem (h : l.tree.LinesWithin low high) : ∀ e ∈ l.entries, l.line ≤ e.line := by
  induction l using induct generalizing low with
  | node id line label slots ih =>
      intro e he
      rcases List.mem_cons.mp he with rfl | he
      · exact Nat.le_refl _
      · obtain ⟨c, hc, hec⟩ := mem_entriesIn.mp he
        have hbelow := linesWithin_child h hc
        have hline := hbelow.line_ge
        rw [tree_line] at hline
        exact Nat.le_trans hline (ih c hc hbelow e hec)

end Placement

namespace Context

variable {low high : Nat} {ctx : Context} {n m : Placement}

theorem linesWithin_fill (h : (ctx.fill n).tree.LinesWithin low high) :
    n.tree.LinesWithin low high := by
  induction ctx generalizing n with
  | nil => exact h
  | cons k ctx ih =>
      have hk : (k.fill n).tree.LinesWithin low high := ih h
      have hn : n.tree.LinesWithin k.line high :=
        linesWithin_child (l := k.fill n) hk (by simp [Layer.fill, Placement.slots])
      have hline : low ≤ k.line := hk.line_ge
      exact hn.widen hline (Nat.le_refl _)

/-- A subtree may be exchanged for one that does not precede it. -/
theorem linesWithin_exchange (h : (ctx.fill n).tree.LinesWithin low high)
    (hm : m.tree.LinesWithin n.line high) : (ctx.fill m).tree.LinesWithin low high := by
  induction ctx generalizing n m with
  | nil =>
      have hn : low ≤ n.tree.line := h.line_ge
      rw [tree_line] at hn
      exact hm.widen hn (Nat.le_refl _)
  | cons k ctx ih =>
      have hk : (k.fill n).tree.LinesWithin low high := linesWithin_fill h
      have hhigh : k.line ≤ high := hk.line_le
      have hchild {c : Placement} (hc : some c ∈ k.before ++ some n :: k.after) :
          c.tree.LinesWithin k.line high := linesWithin_child (l := k.fill n) hk hc
      have hn : k.line ≤ n.tree.line := (hchild (by simp)).line_ge
      rw [tree_line] at hn
      refine ih h (linesWithin_of_children (Nat.le_refl k.line) hhigh fun c hc => ?_)
      rcases List.mem_append.mp hc with hc | hc
      · exact hchild (List.mem_append_left _ hc)
      · rcases List.mem_cons.mp hc with hc | hc
        · cases hc
          exact hm.widen hn (Nat.le_refl _)
        · exact hchild (List.mem_append_right _ (List.mem_cons_of_mem _ hc))

end Context

/-! ### Arenas -/

namespace Arena

variable {a : Arena} {l : Placement} {slots : List (Option Placement)} {root : NodeId}
  {low high : Nat}

/-- All nodes of an arena stand on lines between two bounds, and none on a later line than one of its
children. -/
structure LinesWithin (low high : Nat) (a : Arena) : Prop where
  between : ∀ id c, a.cell? id = some c → low ≤ c.line ∧ c.line ≤ high
  ordered : ∀ id c, a.cell? id = some c → ∀ child ∈ c.children,
    ∃ d, a.cell? child = some d ∧ c.line ≤ d.line

def SmallestLine (a : Arena) (id : NodeId) (line : Nat) : Prop :=
  ∃ lines, a.lines id = .ok lines ∧ lines.min? = some line

/-- The nodes of an arena form one tree, with lines in order. -/
def UnitWithin (low high : Nat) (root : NodeId) (a : Arena) : Prop :=
  ∃ l : Placement, l.root = root ∧ a.root = some root ∧ a.Owns l.entries ∧
    l.tree.LinesWithin low high

theorem UnitWithin.treeShaped (h : a.UnitWithin low high root) : a.TreeShaped root := by
  obtain ⟨l, rfl, hroot, howns, -⟩ := h
  exact howns.treeShaped hroot

theorem UnitWithin.linesWithin (h : a.UnitWithin low high root) : a.LinesWithin low high := by
  obtain ⟨l, rfl, -, howns, hlines⟩ := h
  -- what a cell holds is what the part of the tree says whose root lies in its slot
  have hpart {id : NodeId} {c : Cell} (hc : a.cell? id = some c) :
      ∃ m : Placement, m.tree.LinesWithin low high ∧ a.Holds m ∧ c.line = m.line ∧
        c.children = childIds m.slots := by
    obtain ⟨m, rfl, hsub, hm⟩ := exists_part hlines (howns.covers id (contains_iff.mpr ⟨c, hc⟩))
    have hholds : a.Holds m := fun e he => howns.stores e (hsub he)
    obtain ⟨d, hd, -, hline, -, hused⟩ := hholds.cell
    obtain rfl : c = d := Option.some.inj (hc.symm.trans hd)
    exact ⟨m, hm, hholds, hline, by rw [Cell.children, hused, childIds]⟩
  constructor
  · intro id c hc
    obtain ⟨m, hm, -, hline, -⟩ := hpart hc
    rw [hline, ← tree_line]
    exact ⟨hm.line_ge, hm.line_le⟩
  · intro id c hc child hchild
    obtain ⟨m, hm, hholds, hline, hchildren⟩ := hpart hc
    obtain ⟨k, hk, rfl⟩ : ∃ k, some k ∈ m.slots ∧ k.root = child := by
      simpa [hchildren, childIds, idsOf] using hchild
    obtain ⟨d, hd, -, hdline, -⟩ := (hholds.below.holds hk).cell
    refine ⟨d, hd, ?_⟩
    have hge := (linesWithin_child hm hk).line_ge
    rwa [tree_line, ← hline, ← hdline] at hge

/-! ### Walks in preorder -/

theorem mapM_zipIdx_lines {f : Nat → NodeId → Except Fault (List Visit)}
    (h : ∀ l, some l ∈ slots → ∀ i, ∃ visits, f i l.root = .ok visits ∧
      visits.map (fun v => v.cell.line) = l.entries.map Entry.line) (k : Nat) :
    ∃ below, ((idsOf slots).zipIdx k).mapM (fun (slot, index) =>
        match slot with
        | some child => f index child
        | none => pure []) = .ok below ∧
      below.flatten.map (fun v => v.cell.line) = (entriesIn slots).map Entry.line := by
  induction slots generalizing k with
  | nil => exact ⟨[], rfl, rfl⟩
  | cons o rest ih =>
      obtain ⟨below, hbelow, hlines⟩ := ih (fun l hl => h l (List.mem_cons_of_mem _ hl)) (k + 1)
      cases o with
      | none =>
          refine ⟨[] :: below, ?_, by simpa [entriesIn] using hlines⟩
          rw [idsOf_cons, List.zipIdx_cons, List.mapM_cons, hbelow]
          rfl
      | some l =>
          obtain ⟨visits, hvisits, hfirst⟩ := h l List.mem_cons_self k
          refine ⟨visits :: below, ?_, ?_⟩
          · rw [idsOf_cons, List.zipIdx_cons, List.mapM_cons, hbelow]
            simp only [Option.map_some, hvisits]
            rfl
          · rw [List.flatten_cons, List.map_append, hfirst, hlines, entriesIn, List.map_append]

theorem preorderWithin_lines (h : a.Holds l) {fuel : Nat} (hdepth : l.depth ≤ fuel)
    (back : List Nat) : ∃ visits, a.preorderWithin fuel back l.root = .ok visits ∧
      visits.map (fun v => v.cell.line) = l.entries.map Entry.line := by
  induction fuel generalizing l back with
  | zero => exact absurd l.depth_pos (Nat.not_lt_of_le hdepth)
  | succ fuel ih =>
      obtain ⟨c, hc, -, hline, -, hused⟩ := h.cell
      obtain ⟨below, hbelow, hlines⟩ := mapM_zipIdx_lines
        (f := fun index child => a.preorderWithin fuel (index :: back) child)
        (fun m hm i => ih (h.below.holds hm) (depth_le_of_mem hm hdepth) (i :: back)) 0
      refine ⟨⟨back.reverse, l.root, c⟩ :: below.flatten, ?_, ?_⟩
      · have hcell : a.cell l.root = .ok c := by rw [Arena.cell, hc]
        rw [preorderWithin, hcell, ok_bind, hused]
        exact bind_eq_ok.mpr ⟨below, hbelow, rfl⟩
      · rw [List.map_cons, hlines, hline, entries_eq, List.map_cons]

/-- The lines under a node are those of the entries there. -/
theorem Holds.lines_eq (h : a.Holds l) : a.lines l.root = .ok (l.entries.map Entry.line) := by
  obtain ⟨visits, hvisits, hlines⟩ := preorderWithin_lines h h.depth_le_depthBound []
  rw [Arena.lines, preorder, hvisits, ← hlines]
  rfl

theorem Holds.smallestLine (h : a.Holds l) (hlines : l.tree.LinesWithin low high) :
    a.SmallestLine l.root l.line := by
  refine ⟨_, h.lines_eq, List.min?_eq_some_iff.mpr ⟨?_, ?_⟩⟩
  · rw [entries_eq]
    exact List.mem_cons_self
  · simpa using line_le_of_mem hlines

/-- In a unit with lines in order, the line of each node is the smallest one under it. -/
theorem UnitWithin.smallestLine (h : a.UnitWithin low high root) {id : NodeId} {line : Nat}
    (hline : a.line id = .ok line) : a.SmallestLine id line := by
  obtain ⟨l, rfl, -, howns, hlines⟩ := h
  have hlive : a.contains id := by
    cases hc : a.cell? id with
    | none => simp [Arena.line, Arena.cell, hc, Except.map] at hline
    | some c => exact contains_iff.mpr ⟨c, hc⟩
  obtain ⟨m, rfl, hsub, hm⟩ := exists_part hlines (howns.covers id hlive)
  have hholds : a.Holds m := fun e he => howns.stores e (hsub he)
  cases hholds.line_eq.symm.trans hline
  exact hholds.smallestLine hm

end Arena

/-! ### Passes -/

namespace Pass

variable {p q : Pass} {root : NodeId} {low high : Nat} {f : Frame} {below : List Frame} {i : RuleId}
  {rule : Rule} {b : Bindings} {x : RewriteError} {r : Replacement}

/-- What is bound lies below the position, so its lines begin there, and so do those of the
instance. -/
theorem Due.linesWithin_instance {ctx : Context} {n : Placement} {s : TreeBindings} {t : Tree}
    (h : p.Due root f below rule b ctx n s) (hn : n.tree.LinesWithin low high)
    (ht : rule.template.tree.instantiate s n.line = .ok t) : t.LinesWithin n.line high := by
  have hline : n.line ≤ high := by
    rw [← tree_line]
    exact hn.line_le
  have hbound : ∀ x ∈ s, x.2.LinesWithin n.line high := by
    refine Matcher.treeMatch_forall (Tree.hereditary_linesWithin _ _) _ true _ _ [] s ?_ (by simp)
      h.matched
    rw [← tree_line]
    exact hn.from_line
  exact Tree.linesWithin_instance hline hbound _ _ ht

/-- The subtree at a position has lines in order if the unit has, and so has what an application puts
in its place; that does not precede it. -/
theorem Coherent.apply_lines (hp : p.Coherent root)
    (hc : ∀ side ∈ p.rules.sides, Compiled side.1 side.2) (hlines : p.arena.UnitWithin low high root)
    (h : p.Applies f below i rule b) :
    p.step.pass.arena.UnitWithin low high root ∧
      ∃ n m : Placement, n.root = f.id ∧ m.root = f.id ∧ p.arena.Holds n ∧
        p.step.pass.arena.Holds m ∧ n.tree.LinesWithin low high ∧ m.tree.LinesWithin n.line high := by
  obtain ⟨q, ctx, n, m, s, hdue, hinstance, hq, happlied⟩ :=
    hp.exists_exchanges (hc _ h.sides_mem) h
  obtain ⟨rest, hinside⟩ := hdue.inside
  have hunit : (ctx.fill n).tree.LinesWithin low high := by
    obtain ⟨l, hroot, -, howns, hl⟩ := hlines
    have hfill := (hdue.owns.perm (Context.entries_fill ctx n).symm).holds_all
    have hsame : (ctx.fill n).root = l.root := by rw [Context.root_fill, hinside.root_eq, hroot]
    rwa [Arena.Holds.unique _ _ hfill howns.holds_all hsame]
  have hbefore : n.tree.LinesWithin low high := Context.linesWithin_fill hunit
  have hafter : m.tree.LinesWithin n.line high := hdue.linesWithin_instance hbefore hinstance
  have howns : q.arena.Owns (ctx.fill m).entries := by
    refine Arena.Owns.perm ?_ (Context.entries_fill ctx m).symm
    rw [happlied.root_eq]
    exact happlied.owns
  rw [hq]
  refine ⟨⟨ctx.fill m, ?_, ?_, howns, Context.linesWithin_exchange hunit hafter⟩,
    n, m, hdue.id_eq.symm, ?_, hdue.holds, happlied.owns.holds, hbefore, hafter⟩
  · rw [Context.root_fill, happlied.root_eq, hinside.root_eq]
  · exact happlied.alike.root.trans hinside.position.root
  · rw [happlied.root_eq, hdue.id_eq]

/-- The order of lines: one step keeps it. -/
theorem Coherent.step_lines (hp : p.Coherent root)
    (hc : ∀ side ∈ p.rules.sides, Compiled side.1 side.2)
    (hlines : p.arena.UnitWithin low high root) : p.step.pass.arena.UnitWithin low high root := by
  by_cases happlies : ∃ f below i rule b, p.Applies f below i rule b
  · obtain ⟨f, below, i, rule, b, h⟩ := happlies
    exact (hp.apply_lines hc hlines h).1
  · simp only [not_exists] at happlies
    rw [(quiet_step happlies).arena]
    exact hlines

/-- The order of lines: a run keeps it. -/
theorem Coherent.run_lines (hp : p.Coherent root)
    (hc : ∀ side ∈ p.rules.sides, Compiled side.1 side.2)
    (hlines : p.arena.UnitWithin low high root) (steps : Nat) :
    (p.run steps).pass.arena.UnitWithin low high root := by
  have hstep (x : Pass) (hx : x.Coherent root ∧ (∀ side ∈ x.rules.sides, Compiled side.1 side.2) ∧
      x.arena.UnitWithin low high root) : x.step.pass.Coherent root ∧
      (∀ side ∈ x.step.pass.rules.sides, Compiled side.1 side.2) ∧
        x.step.pass.arena.UnitWithin low high root := by
    obtain ⟨hx, hc, hlines⟩ := hx
    exact ⟨hx.step_pass hc, x.sides_step ▸ hc, hx.step_lines hc hlines⟩
  exact (pass_run_keeps hstep ⟨hp, hc, hlines⟩ steps).2.2

/-! ### Where a run stops -/

/-- The node that an error of the next step is about: the child that lies too deep, or else the
innermost position, where a rule still matches. -/
def reported? (p : Pass) : Option NodeId :=
  p.stack.head?.map fun f => f.pending.headD f.id

end Pass

def RewriteError.place? : RewriteError → Option Location
  | .ruleCycle _ place _ | .depthLimit place _ => some place
  | _ => none

namespace Pass

variable {p q : Pass} {x : RewriteError} {place : Location}

/-- A step that stops at a limit leaves the pass as it was, and names the place of the node that it
is about. -/
theorem location_of_stopped (h : p.step = .stopped x q) (hplace : x.place? = some place) :
    q = p ∧ ∃ id, p.reported? = some id ∧ p.arena.location id = .ok place := by
  cases takes_of_step h with
  | tooDeep f below child pending location hstack hpending _ hlocation =>
      cases hplace
      exact ⟨rfl, child, by simp [reported?, hstack, hpending], hlocation⟩
  | cycle f below i location hstack hpending hlocation =>
      cases hplace
      exact ⟨rfl, f.id, by simp [reported?, hstack, hpending], hlocation⟩
  | apply _ _ _ _ _ _ _ _ _ happly =>
      cases happly with
      | stopped e => cases e <;> cases hplace
  | fault => cases hplace

end Pass

/-! ### Engines -/

namespace Replacement

/-- The line of a replaced node is the smallest one there, and nothing that takes the place of the
node precedes it. -/
structure OnLine (r : Replacement) (line : Nat) : Prop where
  before : r.before.SmallestLine r.position line
  after : ∃ lines, r.after.lines r.position = .ok lines ∧ ∀ l ∈ lines, line ≤ l

end Replacement

theorem line_of_location {a : Arena} {id : NodeId} {place : Location}
    (h : a.location id = .ok place) : a.line id = .ok place.line := by
  cases hline : a.line id with
  | error f => simp [Arena.location, hline, Except.map] at h
  | ok line =>
      simp only [Arena.location, hline, Except.map, Except.ok.injEq] at h
      rw [← h]

theorem exists_replacement_of_mem {rs : List Replacement} {entries : List TraceEntry}
    (h : List.Forall₂ Replacement.Records rs entries) {entry : TraceEntry}
    (hentry : entry ∈ entries) : ∃ r ∈ rs, r.Records entry := by
  induction h with
  | nil => cases hentry
  | cons hr _ ih =>
      rcases List.mem_cons.mp hentry with rfl | hentry
      · exact ⟨_, List.mem_cons_self, hr⟩
      · obtain ⟨r, hmem, hrecords⟩ := ih hentry
        exact ⟨r, List.mem_cons_of_mem _ hmem, hrecords⟩

namespace Engine

variable {e : Engine} {a b : Arena} {root : NodeId} {low high : Nat}

/-- The second unit is what passes make of the first, whatever engines make them, and whether each
ends well, ends with an error or is cut off. -/
inductive Rewritten : Arena → Arena → Prop
  | none (a : Arena) : Rewritten a a
  | pass {a b : Arena} (h : Rewritten a b) {e : Engine} (he : e.InUse) (steps : Nat) :
    Rewritten a (e.processWithin steps b).arena

/-- The lines that a pass reports: each error and each new trace entry names the smallest line in the
subtree that it is about. -/
structure NamesSmallest (e : Engine) (steps : Nat) (a : Arena) : Prop where
  error : ∀ x place, (e.processWithin steps a).result = .error x → x.place? = some place →
    ∃ root p id, a.root = some root ∧ e.PassState a root p ∧ p.step = .stopped x p ∧
      p.reported? = some id ∧ (e.processWithin steps a).arena = p.arena ∧
      p.arena.SmallestLine id place.line
  entry : ∀ entry ∈ (e.processWithin steps a).engine.trace.entries, entry ∈ e.trace.entries ∨
    ∃ r ∈ e.replacements steps a, r.Records entry ∧ r.OnLine entry.location.line

/-- An error that names a place is that of a step in a state of the pass. -/
theorem exists_passState_of_error {x : RewriteError} {location : Location} {steps : Nat}
    (h : (e.processWithin steps a).result = .error x) (hx : x.place? = some location) :
    ∃ root p q, a.root = some root ∧ e.PassState a root p ∧ p.step = .stopped x q ∧
      (e.processWithin steps a).arena = q.arena := by
  unfold processWithin at h ⊢
  split at h
  · cases h
  · rename_i root hroot
    split at h
    · cases h
    · rename_i hrules
      simp only [hrules, if_false]
      rcases e.beginPass_eq a root with ⟨children, hbegin⟩ | ⟨y, hbegin⟩
      · simp only [hbegin] at h ⊢
        generalize hfirst : Pass.mk e.config a e.rules e.trace _ _ = first at hbegin h ⊢
        cases hend : first.run steps with
        | going q =>
            rw [hend] at h
            cases h
            cases hx
        | finished q =>
            rw [hend] at h
            cases h
        | stopped y q =>
            rw [hend] at h
            cases h
            obtain ⟨n, p, hrun, hstop⟩ := Pass.exists_step_of_stopped hend
            exact ⟨root, p, q, hroot, ⟨first, n, hbegin, hrun⟩, hstop, rfl⟩
      · simp only [hbegin] at h
        cases h
        cases hx

/-- A pass keeps lines in order, and so does every state of it. -/
theorem unitWithin_of_passState (he : e.InUse) (h : a.UnitWithin low high root) {p : Pass}
    (hp : e.PassState a root p) :
    p.Coherent root ∧ (∀ side ∈ p.rules.sides, Compiled side.1 side.2) ∧
      p.arena.UnitWithin low high root := by
  have hl := h
  obtain ⟨l, rfl, hroot, howns, -⟩ := hl
  obtain ⟨steps, hrun⟩ := (passState_iff howns.holds_all).mp hp
  have hlines := (coherent_entered (e := e) howns hroot).run_lines he.compiled h steps
  rw [hrun] at hlines
  exact ⟨hp.coherent h.treeShaped, hp.sides_eq ▸ he.compiled, hlines⟩

theorem unitWithin_processWithin (he : e.InUse) (h : a.UnitWithin low high root) (steps : Nat) :
    (e.processWithin steps a).arena.UnitWithin low high root := by
  by_cases hrules : e.rules.size = 0
  · rw [processWithin_of_noRules hrules]
    exact h
  · have hl := h
    obtain ⟨l, rfl, hroot, howns, -⟩ := hl
    have hlines := (coherent_entered (e := e) howns hroot).run_lines he.compiled h steps
    have houtcome (s : Step) : (e.outcome s).arena = s.pass.arena := by
      cases s <;> rfl
    rw [processWithin_eq howns.holds_all hroot hrules, houtcome]
    exact hlines

theorem Rewritten.unitWithin (hb : Rewritten a b) (h : a.UnitWithin low high root) :
    b.UnitWithin low high root := by
  induction hb with
  | none => exact h
  | pass _ he steps ih => exact unitWithin_processWithin he ih steps

/-- A replacement is made on the line of the node that it replaces. -/
theorem exists_onLine (he : e.InUse) (h : a.UnitWithin low high root) {steps : Nat} {r : Replacement}
    (hr : r ∈ e.replacements steps a) :
    ∃ line, r.before.line r.position = .ok line ∧ r.OnLine line := by
  obtain ⟨root', p, hroot, hstate, hp⟩ := exists_passState_of_replacement hr
  cases hroot.symm.trans h.treeShaped.root_eq
  obtain ⟨hcoherent, hcompiled, hlines⟩ := unitWithin_of_passState he h hstate
  obtain ⟨f, below, rule, b, happlies, hposition, hbefore⟩ := Pass.exists_applies_of_replacement hp
  obtain ⟨-, n, m, hn, hm, hholds, hnext, hnlines, hmlines⟩ :=
    hcoherent.apply_lines hcompiled hlines happlies
  have hafter := hcoherent.after_of_replacement hcompiled hp
  rw [hposition, hbefore, ← hn]
  refine ⟨n.line, hholds.line_eq, ?_, ?_⟩
  · rw [hposition, hbefore, ← hn]
    exact hholds.smallestLine hnlines
  · rw [hposition, hafter, ← hm]
    refine ⟨_, hnext.lines_eq, fun line hline => ?_⟩
    obtain ⟨entry, hentry, rfl⟩ := List.mem_map.mp hline
    have hfirst := hmlines.line_ge
    rw [tree_line] at hfirst
    exact Nat.le_trans hfirst (line_le_of_mem hmlines entry hentry)

theorem namesSmallest (he : e.InUse) (h : a.UnitWithin low high root) (steps : Nat) :
    e.NamesSmallest steps a := by
  constructor
  · intro x place hx hplace
    obtain ⟨root', p, q, hroot, hstate, hstop, harena⟩ := exists_passState_of_error hx hplace
    cases hroot.symm.trans h.treeShaped.root_eq
    obtain ⟨rfl, id, hid, hlocation⟩ := Pass.location_of_stopped hstop hplace
    obtain ⟨-, -, hlines⟩ := unitWithin_of_passState he h hstate
    exact ⟨root, q, id, hroot, hstate, hstop, hid, harena,
      hlines.smallestLine (line_of_location hlocation)⟩
  · intro entry hentry
    obtain ⟨p, s, hrules, htrace, hsummary, harena, hbooks, heq⟩ := exists_books he h.treeShaped steps
    have haccounts := Accounts.of_books he hrules htrace hsummary hbooks
    rw [heq] at hentry
    cases henabled : e.trace.enabled with
    | false =>
        rw [haccounts.unlogged henabled] at hentry
        exact .inl hentry
    | true =>
        obtain ⟨entries, hrecords, hlog⟩ := haccounts.logged henabled
        rw [hlog] at hentry
        rcases List.mem_append.mp (List.mem_of_mem_drop hentry) with hold | hnew
        · exact .inl hold
        · obtain ⟨r, hr, hrecord⟩ := exists_replacement_of_mem hrecords hnew
          obtain ⟨line, hline, honLine⟩ := exists_onLine he h hr
          cases hline.symm.trans (line_of_location hrecord.location)
          exact .inr ⟨r, hr, hrecord, honLine⟩

theorem unitWithin_of_parse {sigil : Char} {source origin : String}
    (h : parseUnit sigil source origin = .ok a) :
    ∃ root, a.UnitWithin 1 (1 + source.toList.count '\n') root := by
  obtain ⟨root, t, hread, hshape, htree⟩ := Arena.exists_readProgram h
  obtain ⟨d, hprogram⟩ := program_of_readProgram hread
  obtain ⟨hreaches, hlines⟩ := (program_ends sigil source.toList).1 t d hprogram
  -- the cursor at the end has passed no more line feeds than there are
  obtain ⟨pre, hsource, hposition⟩ := Cursor.reaches_start hreaches
  have hend : d.position.line ≤ 1 + source.toList.count '\n' := by
    rw [hposition, Position.behind_eq, hsource, List.count_append]
    exact Nat.add_le_add_left (Nat.le_add_right _ _) 1
  obtain ⟨l, rfl, howns⟩ := hshape.exists_owns
  cases htree.symm.trans howns.holds_all.tree_eq
  exact ⟨_, l, rfl, hshape.root_eq, howns, Tree.LinesWithin.widen hlines (Nat.le_refl _) hend⟩

/-- The lines of a unit stay in order. In a unit that was read from a text, and in whatever passes
make of it, each node stands on one of the lines of the text, and none on a later line than one of its
children. So the line that an error or a new trace entry of a further pass names is the smallest one
in the subtree that it is about. -/
theorem rewritten_lines {sigil : Char} {source origin : String}
    (h : parseUnit sigil source origin = .ok a) (hb : Rewritten a b) :
    b.LinesWithin 1 (1 + source.toList.count '\n') ∧
      ∀ e : Engine, e.InUse → ∀ steps, e.NamesSmallest steps b := by
  obtain ⟨root, ha⟩ := unitWithin_of_parse h
  have hunit := hb.unitWithin ha
  exact ⟨hunit.linesWithin, fun e he steps => namesSmallest he hunit steps⟩

/-- A call whose argument, a sum, stands on a line of its own. -/
def spreadCall : Tree :=
  .list .stmtList
    [.fixed .call [some (.name "g" 1), some (.list .argList
      [.fixed (.binary .add) [some (.literal (.int 1) 2), some (.literal (.int 0) 2)] 2] 1)] 1] 1

/-- An engine that drops the addition of zero and keeps a log. -/
def logging : Engine :=
  ((Engine.new defaultSigil { debugTrace := true }).register [⟨"$x + 0", "$x"⟩]).2

/-- The sum on the second of three lines is replaced, and the log says so. -/
theorem logging_spreadCall :
    ∃ a b, parseUnit defaultSigil "g(\n  1 + 0\n);" "unit" = .ok a ∧ Rewritten a b ∧
      b.LinesWithin 1 3 ∧ logging.NamesSmallest 20 a ∧ logging.NamesSmallest 20 b ∧
      (logging.processWithin 20 a).arena = b ∧
      (logging.processWithin 20 a).engine.trace.entries =
        [⟨0, ⟨"unit", 2⟩, "1 + 0", "1"⟩] := by
  have hread : readProgram defaultSigil "g(\n  1 + 0\n);".toList = .ok spreadCall :=
    readProgram_of_toOption (by decide +kernel)
  have hparse : parseUnit defaultSigil "g(\n  1 + 0\n);" "unit" =
      .ok (.ofTree "unit" spreadCall) := by
    rw [parseUnit_eq, hread]
  have hused : logging.InUse := by
    rw [logging]
    exact ((Reached.new defaultSigil _).register [⟨"$x + 0", "$x"⟩]).inUse
  have hpass := (Rewritten.none (.ofTree "unit" spreadCall)).pass hused 20
  obtain ⟨-, hbefore⟩ := rewritten_lines hparse (.none _)
  obtain ⟨hlines, hafter⟩ := rewritten_lines hparse hpass
  have hcount : 1 + "g(\n  1 + 0\n);".toList.count '\n' = 3 := by decide
  rw [hcount] at hlines
  exact ⟨_, _, hparse, hpass, hlines, hbefore logging hused 20, hafter logging hused 20, rfl,
    by decide +kernel⟩

end Engine

end SnippetRewrite
