import SnippetRewrite.Arena.Copy
import SnippetRewrite.Proofs.Arena.Ownership
import SnippetRewrite.Proofs.Outcome

/-!
The operations on an arena as data, with any arguments: numbers of slots without a node, or of slots
that do not exist, are among them. What an operation leaves behind counts whether it succeeds or
fails midway. All operations are made of few changes to single slots, so that a property of arenas
is kept by an operation if each of these changes keeps it.
-/

namespace SnippetRewrite

inductive Construction where
  | leaf (kind : LeafKind) (value : Value) (line : Nat)
  | literal (value : Value) (line : Nat)
  | name (text : String) (line : Nat)
  | var (text : String) (line : Nat)
  | fixed (kind : FixedKind) (slots : List (Option NodeId)) (line : Nat)
  | list (kind : ListKind) (items : List NodeId) (line : Nat)
  | decl (kind : DeclKind) (text : String) (flags : Nat) (slots : List (Option NodeId)) (line : Nat)
  | capture (text : String) (line : Nat)
  | deepCopy (id : NodeId)
  | importFrom (other : Arena) (id : NodeId)

inductive Operation where
  | store (c : Construction)
  | setRoot (id : NodeId)
  | setChild (id : NodeId) (index : Nat) (child : Option NodeId)
  | setNode (id : NodeId) (label : Label) (slots : List (Option NodeId))
  | replaceWith (id replacement : NodeId)
  | release (id : NodeId)
  | releaseShallow (id : NodeId)

namespace Edit

variable {α β : Type}

/-- The arena that an edit leaves behind, whether it succeeds or fails. -/
def after (x : Edit α) (a : Arena) : Arena :=
  match x a with
  | .ok _ b | .error _ b => b

end Edit

/-- The edit that stores the nodes; it answers the slot of the last one. -/
def Construction.edit : Construction → Edit NodeId
  | leaf kind value line => Edit.leaf kind value line
  | literal value line => Edit.literal value line
  | name text line => Edit.name text line
  | var text line => Edit.var text line
  | fixed kind slots line => Edit.fixed kind slots line
  | list kind items line => Edit.list kind items line
  | decl kind text flags slots line => Edit.decl kind text flags slots line
  | capture text line => Edit.capture text line
  | deepCopy id => Edit.deepCopy id
  | importFrom other id => Edit.importFrom other id

def Operation.apply : Operation → Arena → Arena
  | store c, a => c.edit.after a
  | setRoot id, a => (Edit.setRoot id).after a
  | setChild id index child, a => (Edit.setChild id index child).after a
  | setNode id label slots, a => (Edit.setNode id label slots).after a
  | replaceWith id replacement, a => (Edit.replaceWith id replacement).after a
  | release id, a => a.release id
  | releaseShallow id, a => a.releaseShallow id

def Arena.perform (a : Arena) (ops : List Operation) : Arena :=
  ops.foldl (fun a op => op.apply a) a

namespace Arena

variable {a b d : Arena} {ids : List NodeId}

/-- The second arena comes from the first by storing nodes, one after the other, in the slots
`ids`. -/
inductive Stored : Arena → List NodeId → Arena → Prop
  | done (a : Arena) : Stored a [] a
  | node {a b d : Arena} {ids : List NodeId} {c : Cell} {id : NodeId} (h : Edit.alloc c a = .ok id b)
    (hrest : Stored b ids d) : Stored a (id :: ids) d

theorem Stored.append {js : List NodeId} (h : Stored a ids b) (h' : Stored b js d) :
    Stored a (ids ++ js) d := by
  induction h with
  | done => exact h'
  | node halloc _ ih => exact .node halloc (ih h')

end Arena

/-! ### Edits that store nodes -/

namespace Edit

variable {α β : Type}

theorem after_of_ok {x : Edit α} {a b : Arena} {v : α} (h : x a = .ok v b) : x.after a = b := by
  rw [after, h]

theorem after_of_error {x : Edit α} {a b : Arena} {e : ArenaError} (h : x a = .error e b) :
    x.after a = b := by
  rw [after, h]

theorem after_bind_ok {x : Edit α} {f : α → Edit β} {a b : Arena} {v : α} (h : x a = .ok v b) :
    (x >>= f).after a = (f v).after b := by
  rw [after, bind_ok h, after]

theorem after_get_bind (f : Arena → Edit α) (a : Arena) :
    ((get : Edit Arena) >>= f).after a = (f a).after a := rfl

theorem after_bind_error {x : Edit α} {f : α → Edit β} {a b : Arena} {e : ArenaError}
    (h : x a = .error e b) : (x >>= f).after a = b :=
  after_of_error (bind_error h)

/-- Whether it succeeds or fails, the edit stores nodes and does nothing else. -/
def OnlyStores (x : Edit α) : Prop :=
  ∀ a : Arena, ∃ ids, a.Stored ids (x.after a)

/-- Whether it succeeds or fails, the edit stores nodes and does nothing else; if it succeeds, it
answers the slot of the last one. -/
def StoresLast (x : Edit NodeId) : Prop :=
  ∀ a : Arena, ∃ ids, a.Stored ids (x.after a) ∧ ∀ id b, x a = .ok id b → ids.getLast? = some id

theorem StoresLast.onlyStores {x : Edit NodeId} (h : x.StoresLast) : x.OnlyStores := by
  intro a
  obtain ⟨ids, hids, -⟩ := h a
  exact ⟨ids, hids⟩

theorem OnlyStores.of_unchanged {x : Edit α} (h : ∀ a, x.after a = a) : x.OnlyStores := by
  intro a
  rw [h]
  exact ⟨[], .done a⟩

theorem OnlyStores.pure (v : α) : (pure v : Edit α).OnlyStores :=
  .of_unchanged fun _ => rfl

theorem OnlyStores.ofRead (read : Arena → Except Fault α) : (ofRead read).OnlyStores := by
  refine .of_unchanged fun a => ?_
  simp only [after, Edit.ofRead]
  cases read a <;> rfl

theorem OnlyStores.bind {x : Edit α} {f : α → Edit β} (hx : x.OnlyStores)
    (hf : ∀ v, (f v).OnlyStores) : (x >>= f).OnlyStores := by
  intro a
  obtain ⟨ids, hids⟩ := hx a
  cases h : x a with
  | ok v b =>
      obtain ⟨js, hjs⟩ := hf v b
      rw [after_of_ok h] at hids
      exact ⟨ids ++ js, after_bind_ok h ▸ hids.append hjs⟩
  | error e b =>
      -- a failure keeps what was stored before it
      rw [after_of_error h] at hids
      exact ⟨ids, after_bind_error h ▸ hids⟩

theorem StoresLast.throw (e : ArenaError) : (throw e : Edit NodeId).StoresLast := by
  intro a
  exact ⟨[], .done a, fun id b h => by cases h⟩

theorem StoresLast.alloc (c : Cell) : (alloc c).StoresLast := by
  intro a
  obtain ⟨id, b, h⟩ : ∃ id b, Edit.alloc c a = .ok id b := by
    unfold Edit.alloc
    split <;> exact ⟨_, _, rfl⟩
  refine ⟨[id], ?_, fun x d hx => ?_⟩
  · rw [after_of_ok h]
    exact .node h (.done b)
  · rw [h] at hx
    cases hx
    rfl

/-- What comes before the last part of an edit may store nodes of its own. -/
theorem OnlyStores.bindLast {x : Edit α} {f : α → Edit NodeId} (hx : x.OnlyStores)
    (hf : ∀ v, (f v).StoresLast) : (x >>= f).StoresLast := by
  intro a
  obtain ⟨ids, hids⟩ := hx a
  cases h : x a with
  | ok v b =>
      obtain ⟨js, hjs, hlast⟩ := hf v b
      rw [after_of_ok h] at hids
      refine ⟨ids ++ js, after_bind_ok h ▸ hids.append hjs, fun id d hd => ?_⟩
      rw [bind_ok h] at hd
      rw [List.getLast?_append, hlast id d hd]
      rfl
  | error e b =>
      rw [after_of_error h] at hids
      refine ⟨ids, after_bind_error h ▸ hids, fun id d hd => ?_⟩
      rw [bind_error h] at hd
      cases hd

theorem OnlyStores.mapM {f : NodeId → Edit NodeId} (hf : ∀ id, (f id).StoresLast)
    (slots : List (Option NodeId)) : (slots.mapM (Option.mapM f)).OnlyStores := by
  induction slots with
  | nil => exact .pure []
  | cons slot rest ih =>
      rw [List.mapM_cons]
      have hslot : (Option.mapM f slot).OnlyStores := by
        cases slot with
        | none => exact .pure none
        | some id => exact (hf id).onlyStores.bind fun _ => .pure _
      exact hslot.bind fun _ => ih.bind fun _ => .pure _

/-- A copy of a node is stored behind the copies of its children. -/
theorem copy_storesLast {read : Edit Cell} {f : NodeId → Edit NodeId} (hread : read.OnlyStores)
    (hf : ∀ id, (f id).StoresLast) :
    (do
      let c ← read
      let slots ← c.used.mapM (Option.mapM f)
      alloc { c with slots := slots ++ c.spare } : Edit NodeId).StoresLast :=
  hread.bindLast fun c => (OnlyStores.mapM hf c.used).bindLast fun _ => .alloc _

theorem deepCopyWithin_storesLast (fuel : Nat) (id : NodeId) : (deepCopyWithin fuel id).StoresLast := by
  induction fuel generalizing id with
  | zero => exact .throw _
  | succ fuel ih => exact copy_storesLast (.ofRead _) ih

theorem importWithin_storesLast (other : Arena) (fuel : Nat) (id : NodeId) :
    (importWithin other fuel id).StoresLast := by
  induction fuel generalizing id with
  | zero => exact .throw _
  | succ fuel ih => exact copy_storesLast (.ofRead _) ih

theorem shaped_storesLast (label : Label) (arity : Nat) (slots : List (Option NodeId)) (line : Nat) :
    (shaped label arity slots line).StoresLast := by
  unfold shaped
  split
  · exact .alloc _
  · exact .throw _

end Edit

theorem Construction.storesLast (c : Construction) : c.edit.StoresLast := by
  cases c with
  | leaf | literal | name | list | capture => exact .alloc _
  | var text line => exact (Edit.StoresLast.alloc _).onlyStores.bindLast fun _ => .alloc _
  | fixed | decl => exact Edit.shaped_storesLast _ _ _ _
  | deepCopy id =>
      have hsize : (get : Edit Arena).OnlyStores := .of_unchanged fun _ => rfl
      exact hsize.bindLast fun a => Edit.deepCopyWithin_storesLast a.depthBound id
  | importFrom other id => exact Edit.importWithin_storesLast other other.depthBound id

/-! ### Releases -/

namespace Arena

/-- Releasing a subtree is releasing single nodes. -/
theorem releaseWithin_keeps {P : Arena → Prop} (hfree : ∀ {b} id, P b → P (b.releaseShallow id))
    (fuel : Nat) {a : Arena} (h : P a) (id : NodeId) : P (a.releaseWithin fuel id) := by
  induction fuel generalizing a id with
  | zero => exact h
  | succ fuel ih =>
      rw [releaseWithin]
      split
      · exact h
      · refine hfree id ?_
        exact List.foldlRecOn _ _ h fun b hb child _ => ih hb child

theorem release_keeps {P : Arena → Prop} (hfree : ∀ {b} id, P b → P (b.releaseShallow id))
    {a : Arena} (h : P a) (id : NodeId) : P (a.release id) :=
  releaseWithin_keeps hfree a.depthBound h id

end Arena

/-! ### What operations keep -/

/-- Taking a node out of its slot is the first change by a replacement; then nodes are released, and
at last a node that is still there is overwritten. -/
theorem Edit.replaceWith_keeps {P : Arena → Prop} {a : Arena} {id replacement : NodeId}
    (hne : id ≠ replacement) (hlive : a.contains replacement) (h : P (a.vacate replacement))
    (hfree : ∀ {b} id, P b → P (b.releaseShallow id))
    (hput : ∀ {b} c, P b → b.contains id → P (b.put id (some c))) :
    P ((Edit.replaceWith id replacement).after a) := by
  obtain ⟨moved, hmoved⟩ := Arena.contains_iff.mp hlive
  have htake : Edit.take replacement a = .ok moved (a.vacate replacement) := by
    simp only [Edit.take, get_bind, hmoved, modify_bind, pure_ok]
  rw [Edit.replaceWith, if_neg hne, after_bind_ok htake]
  cases hold : (a.vacate replacement).cell? id with
  | none =>
      have hdead : Edit.cell id (a.vacate replacement) =
          .error (.fault (.dead id)) (a.vacate replacement) := by
        simp [Edit.cell, Edit.ofRead, Arena.cell, hold]
      rwa [after_bind_error hdead]
  | some old =>
      have hread : Edit.cell id (a.vacate replacement) = .ok old (a.vacate replacement) := by
        simp [Edit.cell, Edit.ofRead, Arena.cell, hold]
      have hreleased : P (old.children.foldl Arena.release (a.vacate replacement)) :=
        List.foldlRecOn _ _ h fun b hb child _ => Arena.release_keeps hfree hb child
      rw [after_bind_ok hread]
      by_cases hstill : (old.children.foldl Arena.release (a.vacate replacement)).contains id
      · simp only [after, modify_bind, get_bind, hstill, if_true, modify_ok]
        exact hput moved hreleased hstill
      · simp only [after, modify_bind, get_bind, hstill]
        exact hreleased

namespace Operation

/-- A property that each change to a single slot keeps is kept by an operation. The changes are: a
node is stored, a live node is overwritten, a node is freed by itself, the replacement of another
node is taken out of its slot, and the root is set. -/
theorem apply_keeps {P : Arena → Prop} {a : Arena} (op : Operation) (h : P a)
    (hstore : ∀ k, op = store k → ∀ {b d c id}, P b → Edit.alloc c b = .ok id d → P d)
    (hput : ∀ {b id} c, P b → b.contains id → P (b.put id (some c)))
    (hfree : ∀ {b} id, P b → P (b.releaseShallow id))
    (htake : ∀ id replacement, op = replaceWith id replacement → id ≠ replacement →
      a.contains replacement → P (a.vacate replacement))
    (hroot : ∀ id, op = setRoot id → P { a with root := some id }) : P (op.apply a) := by
  cases op with
  | store k =>
      obtain ⟨ids, hids, -⟩ := k.storesLast a
      have hkept {b d : Arena} {ids : List NodeId} (hids : b.Stored ids d) (hb : P b) : P d := by
        induction hids with
        | done => exact hb
        | node halloc _ ih => exact ih (hstore k rfl hb halloc)
      exact hkept hids h
  | setRoot id => exact hroot id rfl
  | setChild id index child =>
      rw [apply, Edit.setChild, Edit.after_get_bind]
      cases hc : a.cell? id with
      | none => exact h
      | some c =>
          dsimp only
          -- a slot that the kind does not have, and a list slot that would be emptied, are refused
          split
          · exact h
          · split
            · exact h
            · exact hput _ h (Arena.contains_iff.mpr ⟨c, hc⟩)
  | setNode id label slots =>
      rw [apply, Edit.setNode, Edit.after_get_bind]
      cases hc : a.cell? id with
      | none => exact h
      | some c => exact hput _ h (Arena.contains_iff.mpr ⟨c, hc⟩)
  | replaceWith id replacement =>
      by_cases hne : id = replacement
      · simp only [apply, Edit.replaceWith, if_pos hne]
        exact h
      -- the replacement is taken out before anything is known about the node to be replaced
      · by_cases hlive : a.contains replacement
        · exact Edit.replaceWith_keeps hne hlive (htake id replacement rfl hne hlive) hfree hput
        · have hdead : a.cell? replacement = none := by
            simpa [Arena.contains] using hlive
          have htaken : Edit.take replacement a = .error (.shape (.dangling replacement)) a := by
            simp only [Edit.take, Edit.get_bind, hdead]
            rfl
          rwa [apply, Edit.replaceWith, if_neg hne, Edit.after_bind_error htaken]
  | release id => exact Arena.release_keeps hfree h id
  | releaseShallow id => exact hfree id h

end Operation

end SnippetRewrite
