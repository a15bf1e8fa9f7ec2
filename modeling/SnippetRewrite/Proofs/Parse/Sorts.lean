import SnippetRewrite.Proofs.Parse.RoundTrip

/-!
Sorts of nodes. The number of slots of a node follows from its kind, but not what stands in them. The
table below gives each slot a role; whether a node fits a role is told from its label, and for
statement lists from the labels of their items. Main statement: in a program that is read every node
fits the slot in which it stands, names stand nowhere but in the slots for names, and methods nowhere
but in the bodies of classes.
-/

namespace SnippetRewrite

inductive Role where
  | name
  | expression
  /-- What a call applies: the name of a function or an expression. -/
  | callee
  | statement
  /-- A statement list without methods. -/
  | block
  /-- The body of a class. -/
  | members
  /-- An item of a statement list of either sort. -/
  | member
  | param
  | captured
  | arguments
  | params
  | uses
  | names
deriving DecidableEq, Repr

/-- The role of a slot, and whether the slot may be empty. -/
structure Slot where
  role : Role
  optional : Bool
deriving DecidableEq, Repr

namespace Label

def isExpression : Label → Bool
  | leaf .literal _ | list .array | decl .closure _ _ => true
  | fixed kind => !kind.isStatement && kind ≠ .param
  | _ => false

/-- Labels of statements that are neither expressions nor blocks. -/
def isInstruction : Label → Bool
  | fixed kind => kind.isStatement
  | decl .function _ _ | decl .classDef _ _ => true
  | _ => false

def isMethod : Label → Bool
  | decl .method _ _ => true
  | _ => false

def isClass : Label → Bool
  | decl .classDef _ _ => true
  | _ => false

/-- The slots of a node that has so many of them. -/
def table (label : Label) (length : Nat) : List Slot :=
  match label with
  | leaf _ _ | capture _ => []
  | fixed .var => [⟨.name, false⟩]
  | fixed .param => [⟨.name, false⟩, ⟨.expression, true⟩]
  | fixed .new => [⟨.name, false⟩, ⟨.arguments, false⟩]
  | fixed .call => [⟨.callee, false⟩, ⟨.arguments, false⟩]
  | fixed .methodCall => [⟨.expression, false⟩, ⟨.name, false⟩, ⟨.arguments, false⟩]
  | fixed .prop => [⟨.expression, false⟩, ⟨.name, false⟩]
  | fixed .dim => [⟨.expression, false⟩, ⟨.expression, true⟩]
  | fixed .ifElse => [⟨.expression, false⟩, ⟨.statement, true⟩, ⟨.statement, true⟩]
  | fixed .whileLoop => [⟨.expression, false⟩, ⟨.statement, true⟩]
  | fixed .forLoop =>
    [⟨.expression, true⟩, ⟨.expression, true⟩, ⟨.expression, true⟩, ⟨.statement, true⟩]
  | fixed .ret => [⟨.expression, true⟩]
  -- the value of `echo`, and operands
  | fixed kind => List.replicate kind.arity ⟨.expression, false⟩
  | list .array | list .argList => List.replicate length ⟨.expression, false⟩
  | list .stmtList => List.replicate length ⟨.member, false⟩
  | list .paramList => List.replicate length ⟨.param, false⟩
  | list .closureUses => List.replicate length ⟨.captured, false⟩
  | list .nameList => List.replicate length ⟨.name, false⟩
  | decl .classDef _ _ => [⟨.name, true⟩, ⟨.names, true⟩, ⟨.members, false⟩]
  | decl .method _ _ => [⟨.params, false⟩, ⟨.uses, true⟩, ⟨.block, true⟩, ⟨.name, true⟩]
  | decl _ _ _ => [⟨.params, false⟩, ⟨.uses, true⟩, ⟨.block, false⟩, ⟨.name, true⟩]

/-- Labels that programs have: of the values only those of literals, and of the compound assignments
only those that are written. -/
def IsAdmissible : Label → Prop
  | leaf .literal value => value.IsLiteral
  | leaf .name value => ∃ text, value = .str text
  | fixed (.assignOp op) => op.hasCompoundForm = true
  | capture _ => False
  | _ => True

end Label

namespace Tree

def SpellsName (t : Tree) : Prop :=
  ∃ text, t.label = .ofName text

def IsExpression (t : Tree) : Prop :=
  t.label.isExpression = true

def HoldsMethod (t : Tree) : Prop :=
  ∃ u, some u ∈ t.slots ∧ u.label.isMethod = true

def IsBlock (t : Tree) : Prop :=
  t.label = .list .stmtList ∧ ¬t.HoldsMethod

def IsStatement (t : Tree) : Prop :=
  t.label.isExpression = true ∨ t.label.isInstruction = true ∨ t.IsBlock

end Tree

/-- The role of a part. -/
def Part.role : Part → Role
  | .name | .result => .name
  | .expression => .expression
  | .arguments => .arguments
  | .param => .param
  | .params => .params
  | .captured => .captured
  | .uses => .uses
  | .statement => .statement
  | .block => .block
  | .method => .member
  | .names => .names

def Role.Admits : Role → Tree → Prop
  | name, t => t.SpellsName
  | expression, t => t.IsExpression
  | callee, t => t.SpellsName ∨ t.IsExpression
  | statement, t => t.IsStatement
  | block, t => t.IsBlock
  | members, t => t.label = .list .stmtList ∧ ∀ u, some u ∈ t.slots → u.label.isMethod = true
  | member, t => t.IsStatement ∨ t.label.isMethod = true
  | param, t => t.label = .fixed .param
  | captured, t => t.label = .fixed .var
  | arguments, t => t.label = .list .argList
  | params, t => t.label = .list .paramList
  | uses, t => t.label = .list .closureUses
  | names, t => t.label = .list .nameList ∧ t.slots ≠ []

def Slot.Admits (s : Slot) : Option Tree → Prop
  | none => s.optional = true
  | some t => s.role.Admits t

namespace Tree

/-- The nodes of a tree, each with all that is below it. -/
inductive HasNode : Tree → Tree → Prop
  | self (t : Tree) : HasNode t t
  | child {t u v : Tree} (hu : some u ∈ t.slots) (hv : HasNode u v) : HasNode t v

/-- The label is one of programs, and the children fit the slots of the table, one by one. -/
structure Licenses (label : Label) (slots : List (Option Tree)) : Prop where
  admissible : label.IsAdmissible
  fits : List.Forall₂ Slot.Admits (label.table slots.length) slots

def Licensed (t : Tree) : Prop :=
  ∀ u, t.HasNode u → Licenses u.label u.slots

/-- Trees of programs whose nodes all fit the slots in which they stand. -/
structure WellSorted (t : Tree) : Prop where
  root : t.IsBlock
  licensed : t.Licensed
  /-- Leaves of names stand in slots for names and for callees. -/
  names : ∀ u, t.HasNode u → ∀ (i : Nat) (v : Tree), u.slots[i]? = some (some v) → v.SpellsName →
    ∃ s : Slot, (u.label.table u.slots.length)[i]? = some s ∧ (s.role = .name ∨ s.role = .callee)
  /-- What holds methods is the body of a class. -/
  methods : ∀ u, t.HasNode u → ∀ (i : Nat) (v : Tree), u.slots[i]? = some (some v) → v.HoldsMethod →
    u.label.isClass = true ∧ i = 2

variable {sigil : Char} {part : Part} {t u v : Tree} {line i : Nat} {label : Label}
  {slots : List (Option Tree)} {role : Role}

theorem licensed_node : (node line label slots).Licensed ↔
    Licenses label slots ∧ ∀ t, some t ∈ slots → t.Licensed := by
  constructor
  · exact fun h => ⟨h _ (.self _), fun t ht u hu => h u (.child ht hu)⟩
  · rintro ⟨hhere, hbelow⟩ u (_ | ⟨ht, hu⟩)
    · exact hhere
    · exact hbelow _ ht u hu

theorem Licensed.of_slots (hlabel : label.IsAdmissible)
    (hslots : List.Forall₂ Slot.Admits (label.table slots.length) slots)
    (hbelow : ∀ o ∈ slots, ∀ t ∈ o, t.Licensed) : (node line label slots).Licensed :=
  licensed_node.mpr ⟨⟨hlabel, hslots⟩, fun t ht => hbelow (some t) ht t rfl⟩

theorem forall₂_replicate {items : List Tree} (h : ∀ t ∈ items, role.Admits t) :
    List.Forall₂ Slot.Admits (List.replicate (items.map some).length ⟨role, false⟩)
      (items.map some) := by
  induction items with
  | nil => exact .nil
  | cons t items ih =>
      exact .cons (h t List.mem_cons_self) (ih fun u hu => h u (List.mem_cons_of_mem t hu))

theorem licensed_name (text : String) (line : Nat) : (name text line).Licensed :=
  .of_slots ⟨text, rfl⟩ .nil (by simp)

/-! ### Parts of programs -/

theorem IsPart.isExpression (h : t.IsPart sigil .expression) : t.IsExpression := by
  cases h with
  | @operation kind operands line hkind =>
      cases kind <;> first | rfl | cases hkind
  | _ => rfl

theorem IsPart.spellsName (h : t.IsPart sigil .name) : t.SpellsName := by
  cases h with
  | @name text => exact ⟨text, rfl⟩

theorem isMethod_of_isExpression (h : t.IsExpression) : t.label.isMethod = false := by
  obtain ⟨line, label, slots⟩ := t
  have hlabel : label.isExpression = true := h
  unfold Label.isExpression at hlabel
  split at hlabel <;> first | rfl | cases hlabel

theorem IsPart.isMethod_eq (h : t.IsPart sigil .statement) : t.label.isMethod = false := by
  cases h with
  | ofExpression h => exact isMethod_of_isExpression h.isExpression
  | ofBlock h => cases h; rfl
  | _ => rfl

theorem IsPart.isBlock (h : t.IsPart sigil .block) : t.IsBlock := by
  cases h with
  | @block items line h =>
      refine ⟨rfl, ?_⟩
      rintro ⟨u, hu, hmethod⟩
      have hitem : u ∈ items := by simpa [list, Tree.slots] using hu
      exact Bool.false_ne_true ((h u hitem).isMethod_eq.symm.trans hmethod)

theorem IsPart.isStatement (h : t.IsPart sigil .statement) : t.IsStatement := by
  cases h with
  | ofExpression h => exact .inl h.isExpression
  | ofBlock h => exact .inr (.inr h.isBlock)
  | _ => exact .inr (.inl rfl)

/-- A part of a program fits its role. -/
theorem IsPart.admits (h : t.IsPart sigil part) : part.role.Admits t := by
  cases part with
  | name => exact h.spellsName
  | expression => exact h.isExpression
  | statement => exact h.isStatement
  | block => exact h.isBlock
  | result => cases h; exact ⟨_, rfl⟩
  | method => cases h; exact .inr rfl
  | names =>
      cases h with
      | names hne => exact ⟨rfl, by simpa [list, Tree.slots] using hne⟩
  | arguments | param | params | captured | uses => cases h; rfl

theorem IsPart.admits_optional {o : Option Tree} (h : ∀ t ∈ o, t.IsPart sigil part) :
    Slot.Admits ⟨part.role, true⟩ o := by
  cases o with
  | none => rfl
  | some t => exact (h t rfl).admits

theorem fits_operation {kind : FixedKind} {operands : List Tree} (hkind : kind.isOperation)
    (hlen : operands.length = kind.arity) (h : ∀ t ∈ operands, t.IsExpression) :
    List.Forall₂ Slot.Admits ((Label.fixed kind).table (operands.map some).length)
      (operands.map some) := by
  have hall : List.Forall₂ Slot.Admits
      (List.replicate (operands.map some).length ⟨.expression, false⟩) (operands.map some) :=
    forall₂_replicate h
  rw [List.length_map, hlen] at hall
  cases kind <;> first | exact hall | cases hkind

/-- The parts of programs are licensed throughout. -/
theorem IsPart.licensed (h : t.IsPart sigil part) : t.Licensed := by
  induction h with
  | name | result => exact licensed_name _ _
  | literal h => exact .of_slots h .nil (by simp)
  | var | captured =>
      exact .of_slots trivial (.cons ⟨_, rfl⟩ .nil) (by simpa using licensed_name _ _)
  | @operation kind operands line hkind hlen h ih =>
      refine .of_slots ?_ (fits_operation hkind hlen fun u hu => (h u hu).isExpression)
        (by simpa using ih)
      cases kind <;> first | exact trivial | exact hkind
  | dim hobject hindex =>
      exact .of_slots trivial (.cons hobject.admits (.cons (admits_optional hindex) .nil))
        (by simp_all)
  | prop hobject hmember =>
      exact .of_slots trivial (.cons hobject.admits (.cons hmember.admits .nil)) (by simp_all)
  | methodCall hobject hmember harguments =>
      exact .of_slots trivial
        (.cons hobject.admits (.cons hmember.admits (.cons harguments.admits .nil))) (by simp_all)
  | call hcallee harguments =>
      exact .of_slots trivial (.cons (.inr hcallee.admits) (.cons harguments.admits .nil))
        (by simp_all)
  | callName _ _ harguments =>
      exact .of_slots trivial (.cons (.inl ⟨_, rfl⟩) (.cons harguments.admits .nil))
        (by simp_all [licensed_name])
  | new hname harguments =>
      exact .of_slots trivial (.cons hname.admits (.cons harguments.admits .nil)) (by simp_all)
  | array h ih | arguments h ih | params h ih | uses h ih | names _ h ih =>
      exact .of_slots trivial (forall₂_replicate fun u hu => (h u hu).admits) (by simpa using ih)
  | block h ih =>
      exact .of_slots trivial (forall₂_replicate fun u hu => .inl (h u hu).admits)
        (by simpa using ih)
  | closure hparams huses hbody hresult | function _ hparams huses hbody hresult =>
      exact .of_slots trivial (.cons hparams.admits (.cons (admits_optional huses)
        (.cons hbody.admits (.cons (admits_optional hresult) .nil)))) (by simp_all)
  | method _ _ hparams huses hbody hresult =>
      exact .of_slots trivial (.cons hparams.admits (.cons (admits_optional huses)
        (.cons (admits_optional hbody) (.cons (admits_optional hresult) .nil)))) (by simp_all)
  | param hname hdefault =>
      exact .of_slots trivial (.cons hname.admits (.cons (admits_optional hdefault) .nil))
        (by simp_all)
  | ofExpression _ ih | ofBlock _ ih => exact ih
  | ifElse hcondition hyes hno =>
      exact .of_slots trivial (.cons hcondition.admits (.cons (admits_optional hyes)
        (.cons (admits_optional hno) .nil))) (by simp_all)
  | whileLoop hcondition hbody =>
      exact .of_slots trivial (.cons hcondition.admits (.cons (admits_optional hbody) .nil))
        (by simp_all)
  | forLoop hstart hcondition hstep hbody =>
      exact .of_slots trivial (.cons (admits_optional hstart) (.cons (admits_optional hcondition)
        (.cons (admits_optional hstep) (.cons (admits_optional hbody) .nil)))) (by simp_all)
  | ret h => exact .of_slots trivial (.cons (admits_optional h) .nil) (by simp_all)
  | echo h => exact .of_slots trivial (.cons h.admits .nil) (by simp_all)
  | @classDef _ _ parent interfaces methods _ bodyLine _ _ _ hparent hinterfaces hmethods ihp ihi
      ihm =>
      have hbody : (list .stmtList methods bodyLine).Licensed :=
        .of_slots trivial (forall₂_replicate fun u hu => (hmethods u hu).admits) (by simpa using ihm)
      have hmembers : ∀ u, some u ∈ (list .stmtList methods bodyLine).slots →
          u.label.isMethod = true := by
        intro u hu
        cases hmethods u (by simpa [list, Tree.slots] using hu)
        rfl
      exact .of_slots trivial (.cons (admits_optional hparent) (.cons (admits_optional hinterfaces)
        (.cons ⟨rfl, hmembers⟩ .nil))) (by simpa using ⟨ihp, ihi, hbody⟩)

/-! ### Names and methods -/

theorem HasNode.of_slot (h : t.HasNode u) (hv : some v ∈ u.slots) : t.HasNode v := by
  induction h with
  | self t => exact .child hv (.self v)
  | child hu _ ih => exact .child hu (ih hv)

/-- What stands in a slot fits the entry of the table. -/
theorem Licenses.exists_slot (h : Licenses label slots) (hv : slots[i]? = some (some v)) :
    ∃ s : Slot, (label.table slots.length)[i]? = some s ∧ s.role.Admits v := by
  obtain ⟨hlt, hget⟩ := List.getElem?_eq_some_iff.mp hv
  have hlt' : i < (label.table slots.length).length := h.fits.length_eq.symm ▸ hlt
  have hfits : Slot.Admits (label.table slots.length)[i] slots[i] := h.fits.get hlt' hlt
  rw [hget] at hfits
  exact ⟨_, List.getElem?_eq_getElem hlt', hfits⟩

/-- A leaf of a name fits no other roles than those that ask for names. -/
theorem SpellsName.role_eq (h : t.SpellsName) (hrole : role.Admits t) :
    role = .name ∨ role = .callee := by
  obtain ⟨text, hlabel⟩ := h
  cases role <;> simp [Role.Admits, IsStatement, IsExpression, IsBlock, hlabel, Label.ofName,
    Label.isExpression, Label.isInstruction, Label.isMethod] at hrole ⊢

/-- A method fits no other role than that of an item. -/
theorem role_eq_member (h : t.label.isMethod = true) (hrole : role.Admits t) : role = .member := by
  obtain ⟨line, label, slots⟩ := t
  have hmethod : ∃ name flags, label = .decl .method name flags := by
    unfold Label.isMethod at h
    split at h
    · exact ⟨_, _, by assumption⟩
    · cases h
  obtain ⟨name, flags, rfl⟩ := hmethod
  cases role <;> simp [Role.Admits, IsStatement, IsExpression, IsBlock, SpellsName, Tree.label,
    Label.ofName, Label.isExpression, Label.isInstruction, Label.isMethod] at hrole ⊢

/-- Only statement lists have items that may be methods. -/
theorem label_of_member {n : Nat} {optional : Bool}
    (h : (label.table n)[i]? = some ⟨.member, optional⟩) : label = .list .stmtList := by
  have hmem := List.mem_of_getElem? h
  unfold Label.table at hmem
  split at hmem <;> simp at hmem
  rfl

/-- Only classes have a slot for methods, and it is the third. -/
theorem isClass_of_members {n : Nat} {optional : Bool}
    (h : (label.table n)[i]? = some ⟨.members, optional⟩) : label.isClass = true ∧ i = 2 := by
  have hmem := List.mem_of_getElem? h
  unfold Label.table at hmem
  split at hmem <;> simp at hmem
  refine ⟨rfl, ?_⟩
  rcases i with _ | _ | _ | i <;> simp [Label.table] at h ⊢

/-- A list that holds methods fits the role of a class body only. -/
theorem role_eq_members (hlabel : t.label = .list .stmtList) (h : t.HoldsMethod)
    (hrole : role.Admits t) : role = .members := by
  cases role <;> simp [Role.Admits, IsStatement, IsExpression, IsBlock, SpellsName, hlabel, h,
    Label.ofName, Label.isExpression, Label.isInstruction, Label.isMethod] at hrole ⊢

theorem Licensed.names (h : t.Licensed) (hu : t.HasNode u) (hv : u.slots[i]? = some (some v))
    (hname : v.SpellsName) : ∃ s : Slot, (u.label.table u.slots.length)[i]? = some s ∧
      (s.role = .name ∨ s.role = .callee) := by
  obtain ⟨s, hs, hrole⟩ := (h u hu).exists_slot hv
  exact ⟨s, hs, hname.role_eq hrole⟩

theorem Licensed.methods (h : t.Licensed) (hu : t.HasNode u) (hv : u.slots[i]? = some (some v))
    (hholds : v.HoldsMethod) : u.label.isClass = true ∧ i = 2 := by
  obtain ⟨m, hm, hmethod⟩ := hholds
  obtain ⟨j, hj⟩ := List.mem_iff_getElem?.mp hm
  -- the method is an item, so what holds it is a statement list; but no other role than that of a
  -- class body admits a list with a method
  obtain ⟨⟨_, _⟩, hs, hrole⟩ := (h v (hu.of_slot (List.mem_of_getElem? hv))).exists_slot hj
  obtain rfl := role_eq_member hmethod hrole
  obtain ⟨⟨_, _⟩, hs', hrole'⟩ := (h u hu).exists_slot hv
  obtain rfl := role_eq_members (label_of_member hs) ⟨m, hm, hmethod⟩ hrole'
  exact isClass_of_members hs'

/-- Programs are well sorted. -/
theorem IsPart.wellSorted (h : t.IsPart sigil .block) : t.WellSorted where
  root := h.isBlock
  licensed := h.licensed
  names _ hu _ _ hv hname := h.licensed.names hu hv hname
  methods _ hu _ _ hv hholds := h.licensed.methods hu hv hholds

end Tree

/-- A source text that is accepted, with whatever sigil and label, becomes a well-sorted tree. -/
theorem parseUnit_wellSorted {sigil : Char} {source origin : String} {a : Arena}
    (h : parseUnit sigil source origin = .ok a) :
    ∃ root t, a.root = some root ∧ a.tree root = .ok t ∧ t.WellSorted := by
  obtain ⟨root, t, hread, hshape, ht⟩ := Arena.exists_readProgram h
  exact ⟨root, t, hshape.root_eq, ht, (readProgram_isPart hread).wellSorted⟩

def classAndCall : Tree :=
  .list .stmtList
    [.node 1 (.decl .classDef "A" 0)
      [none, none, some (.list .stmtList
        [.node 1 (.decl .method "m" 0)
          [some (.list .paramList [.fixed .param [some (.name "$x" 1), none] 1] 1), none, none,
            some (.name "T" 1)]] 1)],
      .fixed .methodCall [some (.var "$f" 1), some (.name "g" 1), some (.list .argList
        [.fixed .new [some (.name "A" 1), some (.list .argList [] 1)] 1] 1)] 1] 1

theorem parseUnit_classAndCall :
    ∃ a root, parseUnit defaultSigil "class A \x7b function m($x): T; \x7d $f->g(new A);" "unit" = .ok a ∧
      a.root = some root ∧ a.tree root = .ok classAndCall ∧ classAndCall.WellSorted := by
  have hread : readProgram defaultSigil "class A \x7b function m($x): T; \x7d $f->g(new A);".toList =
      .ok classAndCall := readProgram_of_toOption (by decide +kernel)
  obtain ⟨a, root, hparse, hshape, htree⟩ := Arena.exists_parseUnit hread "unit"
  obtain ⟨root', t, hroot, ht, hsorted⟩ := parseUnit_wellSorted hparse
  obtain rfl : root = root' := Option.some.inj (hshape.root_eq.symm.trans hroot)
  obtain rfl : classAndCall = t := Except.ok.inj (htree.symm.trans ht)
  exact ⟨a, root, hparse, hroot, htree, hsorted⟩

end SnippetRewrite
