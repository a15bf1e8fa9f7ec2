import SnippetRewrite.Proofs.Syntax.Formula

/-!
Chains: expressions made of variables, integers, calls, members, indices and new objects. A call
whose callee is a variable or a property is read only from a text with parentheses around the callee,
and these are not printed. What is read from the printed text is therefore another chain, which
differs from the first exactly if there is such a call.
-/

namespace SnippetRewrite

def Label.isOfChain : Label → Bool
  | .leaf .name _ | .leaf .literal (.int _) | .list .argList => true
  | .fixed kind =>
    kind = .var || kind = .call || kind = .methodCall || kind = .prop || kind = .dim || kind = .new
  | _ => false

namespace Tree

def isChain (t : Tree) : Bool :=
  t.fold fun _ label slots => label.isOfChain && slots.all (·.getD true)

/-- What is read from the text of a call: a name in front of the arguments is that of a function or
a method. -/
def readCall (line : Nat) : List (Option Tree) → Tree
  | [some (node _ (.fixed .var) [some function]), some arguments] =>
    if function.label = .ofName "array" then node line (.list .array) arguments.slots
    else fixed .call [some function, some arguments] line
  | [some (node _ (.fixed .prop) [object, member]), some arguments] =>
    fixed .methodCall [object, member, some arguments] line
  | slots => fixed .call slots line

/-- What is read from the text of an expression. -/
def reread (t : Tree) : Tree :=
  t.fold fun line label slots =>
    if label = .fixed .call then readCall line slots else node line label slots

mutual

def callsReference : Tree → Bool
  | node _ label slots =>
    (decide (label = .fixed .call) && (slots.head?.join.any isReference)) || callsReferenceIn slots

def callsReferenceIn : List (Option Tree) → Bool
  | [] => false
  | none :: rest => callsReferenceIn rest
  | some t :: rest => callsReference t || callsReferenceIn rest

end

/-! ### The form of chains -/

/-- Chains with what their names and integers satisfy. Lines are free. -/
inductive Chain : Tree → Prop
  | integer {n : Int} {line : Nat} (h : (Value.int n).IsPlain) : Chain (.literal (.int n) line)
  | var {text : String} {line nameLine : Nat} (h : IsVariableName defaultSigil text) :
    Chain (.fixed .var [some (.name text nameLine)] line)
  | dim {object : Tree} {index : Option Tree} {line : Nat} (hobject : Chain object)
    (hindex : ∀ t ∈ index, Chain t) : Chain (.fixed .dim [some object, index] line)
  | prop {object : Tree} {member : String} {line nameLine : Nat} (hobject : Chain object)
    (hmember : IsName defaultSigil member) :
    Chain (.fixed .prop [some object, some (.name member nameLine)] line)
  | methodCall {object : Tree} {member : String} {arguments : List Tree}
    {line nameLine argumentLine : Nat} (hobject : Chain object)
    (hmember : IsName defaultSigil member) (harguments : ∀ t ∈ arguments, Chain t) :
    Chain (.fixed .methodCall [some object, some (.name member nameLine),
      some (.list .argList arguments argumentLine)] line)
  | new {className : String} {arguments : List Tree} {line nameLine argumentLine : Nat}
    (hname : IsName defaultSigil className) (harguments : ∀ t ∈ arguments, Chain t) :
    Chain (.fixed .new
      [some (.name className nameLine), some (.list .argList arguments argumentLine)] line)
  | callName {function : String} {arguments : List Tree} {line nameLine argumentLine : Nat}
    (hname : IsVariableName defaultSigil function) (harray : function ≠ "array")
    (harguments : ∀ t ∈ arguments, Chain t) :
    Chain (.fixed .call
      [some (.name function nameLine), some (.list .argList arguments argumentLine)] line)
  | callVariable {text : String} {arguments : List Tree}
    {line nameLine variableLine argumentLine : Nat} (hname : IsVariableName defaultSigil text)
    (harguments : ∀ t ∈ arguments, Chain t) :
    Chain (.fixed .call [some (.fixed .var [some (.name text nameLine)] variableLine),
      some (.list .argList arguments argumentLine)] line)
  | callProperty {object : Tree} {member : String} {arguments : List Tree}
    {line nameLine memberLine argumentLine : Nat} (hobject : Chain object)
    (hmember : IsName defaultSigil member) (harguments : ∀ t ∈ arguments, Chain t) :
    Chain (.fixed .call [some (.fixed .prop [some object, some (.name member nameLine)] memberLine),
      some (.list .argList arguments argumentLine)] line)
  | call {callee : Tree} {arguments : List Tree} {line argumentLine : Nat} (hcallee : Chain callee)
    (hreference : callee.isReference = false) (harguments : ∀ t ∈ arguments, Chain t) :
    Chain (.fixed .call [some callee, some (.list .argList arguments argumentLine)] line)

/-- A chain that is called, whatever it is. -/
theorem Chain.called {callee : Tree} {arguments : List Tree} {line argumentLine : Nat}
    (hcallee : callee.Chain) (harguments : ∀ t ∈ arguments, t.Chain) :
    (fixed .call [some callee, some (.list .argList arguments argumentLine)] line).Chain := by
  cases hreference : callee.isReference with
  | false => exact .call hcallee hreference harguments
  | true =>
      cases hcallee with
      | var hname => exact .callVariable hname harguments
      | prop hobject hmember => exact .callProperty hobject hmember harguments
      | _ => cases hreference

theorem isChain_node {line : Nat} {label : Label} {slots : List (Option Tree)} :
    (node line label slots).isChain = true ↔
      label.isOfChain = true ∧ ∀ t, some t ∈ slots → t.isChain = true := by
  rw [isChain, fold_node, Bool.and_eq_true, List.all_map, List.all_eq_true]
  refine and_congr_right fun _ => ⟨fun h t ht => h (some t) ht, fun h o ho => ?_⟩
  cases o with
  | none => rfl
  | some t => exact h t ho

/-- Expressions of programs that are made of nodes of chains are chains. -/
theorem IsPart.chain {t : Tree} {part : Part} (h : t.IsPart defaultSigil part)
    (hchain : t.isChain = true) :
    (part = .expression → t.Chain) ∧ (part = .arguments →
      ∃ items line, t = list .argList items line ∧ ∀ u ∈ items, u.Chain) := by
  induction h with
  | @literal value line h =>
      refine ⟨fun _ => ?_, nofun⟩
      have hlabel := (isChain_node.mp hchain).1
      cases value with
      | int n => exact .integer ⟨h.1, Int.lt_of_le_of_lt h.2 (by decide)⟩
      | _ => cases hlabel
  | var h => exact ⟨fun _ => .var h, nofun⟩
  | @operation kind _ _ hkind _ _ _ =>
      have hlabel := (isChain_node.mp hchain).1
      cases kind <;> first
        | cases hkind
          done
        | cases hlabel
  | dim _ _ ihobject ihindex =>
      have hslots := (isChain_node.mp hchain).2
      exact ⟨fun _ => .dim ((ihobject (hslots _ (by simp))).1 rfl)
        fun t ht => (ihindex t ht (hslots t (by simp_all))).1 rfl, nofun⟩
  | prop _ hmember ihobject _ =>
      have hslots := (isChain_node.mp hchain).2
      cases hmember with
      | name hname => exact ⟨fun _ => .prop ((ihobject (hslots _ (by simp))).1 rfl) hname, nofun⟩
  | methodCall _ hmember _ ihobject _ iharguments =>
      have hslots := (isChain_node.mp hchain).2
      obtain ⟨items, line, rfl, hitems⟩ := (iharguments (hslots _ (by simp))).2 rfl
      cases hmember with
      | name hname =>
          exact ⟨fun _ => .methodCall ((ihobject (hslots _ (by simp))).1 rfl) hname hitems, nofun⟩
  | call _ _ ihcallee iharguments =>
      have hslots := (isChain_node.mp hchain).2
      obtain ⟨items, line, rfl, hitems⟩ := (iharguments (hslots _ (by simp))).2 rfl
      exact ⟨fun _ => ((ihcallee (hslots _ (by simp))).1 rfl).called hitems, nofun⟩
  | callName hname harray _ iharguments =>
      have hslots := (isChain_node.mp hchain).2
      obtain ⟨items, line, rfl, hitems⟩ := (iharguments (hslots _ (by simp))).2 rfl
      exact ⟨fun _ => .callName hname harray hitems, nofun⟩
  | new hname _ _ iharguments =>
      have hslots := (isChain_node.mp hchain).2
      obtain ⟨items, line, rfl, hitems⟩ := (iharguments (hslots _ (by simp))).2 rfl
      cases hname with
      | name hname => exact ⟨fun _ => .new hname hitems, nofun⟩
  | array | closure =>
      have hlabel := (isChain_node.mp hchain).1
      cases hlabel
  | arguments _ ih =>
      have hslots := (isChain_node.mp hchain).2
      exact ⟨nofun, fun _ => ⟨_, _, rfl, fun u hu => (ih u hu (hslots u (by simpa using hu))).1 rfl⟩⟩
  | _ => exact ⟨nofun, nofun⟩

theorem IsPart.chain_of_statement {t : Tree} (h : t.IsPart defaultSigil .statement)
    (hchain : t.isChain = true) : t.Chain := by
  cases h with
  | ofExpression h => exact (h.chain hchain).1 rfl
  | ofBlock h =>
      cases h
      cases (isChain_node.mp hchain).1
  | _ => cases (isChain_node.mp hchain).1

/-! ### What is read from the text of a chain -/

variable {line : Nat}

theorem reread_node (line : Nat) (label : Label) (slots : List (Option Tree)) :
    (node line label slots).reread =
      if label = .fixed .call then readCall line (slots.map (Option.map reread))
      else node line label (slots.map (Option.map reread)) :=
  fold_node _ line label slots

theorem reread_fixed {kind : FixedKind} (h : kind ≠ .call) (slots : List (Option Tree)) :
    (fixed kind slots line).reread = fixed kind (slots.map (Option.map reread)) line := by
  rw [fixed, reread_node, if_neg (by simpa using h)]
  rfl

@[simp] theorem reread_name (text : String) : (name text line).reread = name text line :=
  reread_node line _ []

theorem reread_var (text : String) (line nameLine : Nat) :
    (fixed .var [some (name text nameLine)] line).reread = fixed .var [some (name text nameLine)] line :=
  reread_fixed (by decide) _

theorem reread_prop (object member : Tree) (line : Nat) :
    (fixed .prop [some object, some member] line).reread =
      fixed .prop [some object.reread, some member.reread] line :=
  reread_fixed (by decide) _

theorem reread_list (kind : ListKind) (items : List Tree) :
    (list kind items line).reread = list kind (items.map reread) line := by
  rw [list, reread_node, if_neg (by simp)]
  simp [list]

theorem readCall_var (text : String) (line nameLine varLine : Nat) (arguments : Tree) :
    readCall line [some (fixed .var [some (name text nameLine)] varLine), some arguments] =
      if text = "array" then node line (.list .array) arguments.slots
      else fixed .call [some (name text nameLine), some arguments] line := by
  simp [readCall, fixed, name, label, Label.ofName]

theorem readCall_prop (object member arguments : Tree) (line propLine : Nat) :
    readCall line [some (fixed .prop [some object, some member] propLine), some arguments] =
      fixed .methodCall [some object, some member, some arguments] line :=
  rfl

theorem readCall_of_not_reference {callee : Tree} (h : callee.isReference = false) (arguments : Tree)
    (line : Nat) :
    readCall line [some callee, some arguments] = fixed .call [some callee, some arguments] line := by
  unfold readCall
  split <;> simp_all [isReference, label]

theorem isReference_readCall (line : Nat) (slots : List (Option Tree)) :
    (readCall line slots).isReference = false := by
  unfold readCall
  split
  · split <;> rfl
  · rfl
  · rfl

/-- Variables stay variables and properties stay properties. -/
theorem isReference_reread (t : Tree) : t.reread.isReference = t.isReference := by
  obtain ⟨line, label, slots⟩ := t
  rw [reread_node]
  split
  · rename_i h
    rw [isReference_readCall, h]
    rfl
  · rfl

theorem reread_call (callee arguments : Tree) (line : Nat) :
    (fixed .call [some callee, some arguments] line).reread =
      readCall line [some callee.reread, some arguments.reread] := by
  rw [fixed, reread_node, if_pos rfl]
  rfl

/-! ### Where the reading differs -/

theorem callsReference_fixed {kind : FixedKind} (h : kind ≠ .call) (slots : List (Option Tree)) :
    (fixed kind slots line).callsReference = callsReferenceIn slots := by
  simp [fixed, callsReference, h]

theorem callsReference_call (callee arguments : Tree) (line : Nat) :
    (fixed .call [some callee, some arguments] line).callsReference =
      (callee.isReference || (callee.callsReference || arguments.callsReference)) := by
  simp [fixed, callsReference, callsReferenceIn]

@[simp] theorem callsReference_name (text : String) : (name text line).callsReference = false := rfl

theorem callsReference_list (kind : ListKind) (items : List Tree) :
    (list kind items line).callsReference = callsReferenceIn (items.map some) := by
  simp [list, callsReference]

/-- The text of a list is read as the same list if the texts of its items are read as these, and only
then. -/
theorem same_reread_list {items : List Tree} (h : ∀ t ∈ items, t.reread.same t = !t.callsReference)
    (kind : ListKind) :
    (list kind items line).reread.same (list kind items line) =
      !(list kind items line).callsReference := by
  rw [reread_list, same_list, callsReference_list]
  induction items with
  | nil => rfl
  | cons t rest ih =>
      simp only [List.mem_cons, forall_eq_or_imp] at h
      rw [List.map_cons, List.map_cons, List.map_cons, sameSlots, callsReferenceIn, h.1, ih h.2,
        Bool.not_or]

/-- The text of a chain is read as the same chain exactly if nothing that is called is a variable or
a property. -/
theorem Chain.same_reread {t : Tree} (h : t.Chain) : t.reread.same t = !t.callsReference := by
  induction h with
  | integer h =>
      rw [literal, reread_node, if_neg (by simp)]
      exact same_literal h _ _
  | var =>
      rw [reread_var, callsReference_fixed (by decide)]
      simp [sameSlots, callsReferenceIn]
  | @dim _ index _ _ _ ihobject ihindex =>
      rw [reread_fixed (by decide), callsReference_fixed (by decide)]
      cases index <;> simp_all [sameSlots, callsReferenceIn]
  | prop _ _ ihobject =>
      rw [reread_fixed (by decide), callsReference_fixed (by decide)]
      simp [sameSlots, callsReferenceIn, ihobject]
  | methodCall _ _ _ ihobject iharguments =>
      rw [reread_fixed (by decide), callsReference_fixed (by decide)]
      simp [sameSlots, callsReferenceIn, ihobject, same_reread_list iharguments]
  | new _ _ iharguments =>
      rw [reread_fixed (by decide), callsReference_fixed (by decide)]
      simp [sameSlots, callsReferenceIn, same_reread_list iharguments]
  | @callName function _ _ nameLine _ _ _ _ iharguments =>
      have hname : (name function nameLine).isReference = false := rfl
      rw [reread_call, callsReference_call, reread_name, readCall_of_not_reference hname, hname]
      simp [sameSlots, same_reread_list iharguments]
  | callVariable =>
      rw [reread_call, callsReference_call, reread_var, readCall_var]
      split <;> simp [same, sameSlots, Label.same, fixed, name, Label.ofName, isReference, label]
  | callProperty =>
      rw [reread_call, callsReference_call, reread_prop, readCall_prop]
      simp [same, Label.same, fixed, isReference, label]
  | @call callee _ _ _ _ hreference _ ihcallee iharguments =>
      have hread : callee.reread.isReference = false := by rw [isReference_reread, hreference]
      rw [reread_call, callsReference_call, hreference, readCall_of_not_reference hread]
      simp [sameSlots, ihcallee, same_reread_list iharguments]

end Tree

end SnippetRewrite
