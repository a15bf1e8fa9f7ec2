import SnippetRewrite.Proofs.Parse.RoundTrip
import SnippetRewrite.Proofs.Rewrite.Applications
import SnippetRewrite.Proofs.Rewrite.Settling

/-!
The slots that hold statement lists. The root of a program is a statement list and so is the body of
a declaration, and whoever prints them takes that for granted. A rule writes its instance into the
slot where its pattern was found, so it can take a list away only if its pattern is a list and its
template is none: all other patterns are found at a list with one statement only if they are found
at the statement as well, and that was settled before.
-/

namespace SnippetRewrite

namespace Tree

variable {t u v : Tree} {line line' : Nat} {label : Label} {slots us vs : List (Option Tree)}
  {kind : DeclKind} {o o' : Option Tree} {b : TreeBindings}

/-- What may stand in the slot for the body of a declaration: a list, and for a method nothing. -/
def FitsBody (kind : DeclKind) : Option Tree → Prop
  | none => kind = .method
  | some body => body.label.isStmtList = true

/-- All declarations in the tree have bodies that fit; the body is the third slot. -/
inductive Bodied : Tree → Prop
  | mk {line : Nat} {label : Label} {slots : List (Option Tree)}
    (below : ∀ t, some t ∈ slots → Bodied t)
    (here : ∀ kind name flags, label = .decl kind name flags →
      ∃ body, slots[2]? = some body ∧ FitsBody kind body) : Bodied (.node line label slots)

/-- The trees of programs, as far as statement lists are concerned. -/
structure IsProgram (t : Tree) : Prop where
  root : t.label.isStmtList = true
  bodied : t.Bodied

theorem Bodied.hereditary : Hereditary Bodied := by
  intro line label slots h t ht
  cases h with
  | mk below here => exact below t ht

theorem Bodied.of_leaf {kind : LeafKind} {value : Value} : (node line (.leaf kind value) []).Bodied :=
  .mk (by simp) (by simp)

theorem Bodied.of_fixed {kind : FixedKind} (h : ∀ o ∈ slots, ∀ t ∈ o, t.Bodied) :
    (fixed kind slots line).Bodied :=
  .mk (fun t ht => h (some t) ht t rfl) (by simp)

theorem Bodied.of_list {kind : ListKind} {items : List Tree} (h : ∀ t ∈ items, t.Bodied) :
    (list kind items line).Bodied :=
  .mk (by simpa using h) (by simp)

theorem Bodied.of_decl {name : String} {flags : Nat} (h : ∀ o ∈ slots, ∀ t ∈ o, t.Bodied)
    (hslot : slots[2]? = some o) (hfits : FitsBody kind o) :
    (node line (.decl kind name flags) slots).Bodied := by
  refine .mk (fun t ht => h (some t) ht t rfl) fun kind' name' flags' heq => ?_
  cases heq
  exact ⟨o, hslot, hfits⟩

/-! ### Replacing children -/

/-- The second tree is a list if the first one is. -/
def KeepsList (t u : Tree) : Prop :=
  t.label.isStmtList = true → u.label.isStmtList = true

theorem FitsBody.replace (h : FitsBody kind o) (hkeeps : Option.Rel KeepsList o o') :
    FitsBody kind o' := by
  cases hkeeps with
  | none => exact h
  | some hkeeps => exact hkeeps h

/-- Children may be replaced one by one by others that are lists where they are. -/
theorem Bodied.replace (h : (node line label us).Bodied) (hbelow : ∀ t, some t ∈ vs → t.Bodied)
    (hkeeps : List.Forall₂ (Option.Rel KeepsList) us vs) : (node line' label vs).Bodied := by
  cases h with
  | mk below here =>
      refine .mk hbelow fun kind name flags heq => ?_
      obtain ⟨body, hbody, hfits⟩ := here kind name flags heq
      obtain ⟨hlt, hget⟩ := List.getElem?_eq_some_iff.mp hbody
      have hlt' : 2 < vs.length := hkeeps.length_eq ▸ hlt
      have hslot : Option.Rel KeepsList us[2] vs[2] := hkeeps.get hlt hlt'
      rw [hget] at hslot
      exact ⟨vs[2], List.getElem?_eq_getElem hlt', hfits.replace hslot⟩

/-! ### Programs and snippets -/

theorem IsPart.block_label {sigil : Char} (h : t.IsPart sigil .block) :
    t.label.isStmtList = true := by
  cases h
  rfl

theorem Bodied.name (text : String) : (Tree.name text line).Bodied :=
  .of_leaf

/-- Parts of programs have bodies where declarations ask for them. -/
theorem IsPart.bodied {sigil : Char} {part : Part} (h : t.IsPart sigil part) : t.Bodied := by
  induction h with
  | name | literal | result => exact .of_leaf
  | var | captured => exact .of_fixed (by simp [Bodied.name])
  | operation _ _ _ ih => exact .of_fixed (by simpa using ih)
  | callName _ _ _ ih => exact .of_fixed (by simp [Bodied.name, ih])
  | array _ ih | arguments _ ih | params _ ih | uses _ ih | block _ ih | names _ _ ih =>
      exact .of_list ih
  | ofExpression _ ih | ofBlock _ ih => exact ih
  | closure _ _ hbody _ _ _ _ _ => exact .of_decl (by simp_all) rfl hbody.block_label
  | function _ _ _ hbody _ _ _ _ _ => exact .of_decl (by simp_all) rfl hbody.block_label
  | @method _ _ _ _ body _ _ _ _ _ _ hbody _ _ _ _ _ =>
      refine .of_decl (by simp_all) rfl ?_
      cases body with
      | none => rfl
      | some body => exact (hbody body rfl).block_label
  | classDef _ _ _ _ _ _ hparent hinterfaces hmethods =>
      refine .of_decl ?_ rfl rfl
      simpa [Bodied.of_list hmethods] using ⟨hparent, hinterfaces⟩
  | _ => exact .of_fixed (by simp_all)

theorem keepsList_markCaptures (sigil : Char) (t : Tree) : t.KeepsList (t.markCaptures sigil) := by
  intro ht
  obtain ⟨line, label, slots⟩ := t
  cases label with
  | list kind => exact ht
  | _ => cases ht

theorem Bodied.markCaptures {sigil : Char} (h : t.Bodied) : (t.markCaptures sigil).Bodied := by
  induction t using Tree.induct with
  | node line label slots ih =>
      rw [Tree.markCaptures]
      split
      · exact .mk (by simp) (by simp)
      · refine h.replace (fun u hu => ?_) ?_
        · rw [markSlots_eq_map] at hu
          obtain ⟨o, ho, heq⟩ := List.mem_map.mp hu
          obtain ⟨t, rfl, rfl⟩ := Option.map_eq_some_iff.mp heq
          exact ih t ho (Bodied.hereditary _ _ _ h t ho)
        · rw [markSlots_eq_map, List.forall₂_map_right_iff, List.forall₂_same]
          rintro (_ | t) -
          · exact .none
          · exact .some (keepsList_markCaptures sigil t)

end Tree

open SnippetRewrite.Tree

theorem SnippetReader.bodied_of_rule {r : SnippetReader} {source replacement : String} {p : Pattern}
    {t : Template} (h : r.rule source replacement = .ok (p, t)) : t.tree.Bodied := by
  obtain ⟨p', hp, h⟩ := bind_eq_ok.mp h
  obtain ⟨t', ht, h⟩ := bind_eq_ok.mp h
  obtain ⟨s, hs, ht⟩ := bind_eq_ok.mp ht
  cases ht
  split at h
  · cases h
  · cases h
    obtain ⟨u, hprogram, -, htree, -⟩ := exists_program hs
    rw [htree]
    exact (Bodied.hereditary.unwrapSingle (program_isPart hprogram).bodied).markCaptures

namespace Tree

variable {t u v : Tree} {line : Nat} {b : TreeBindings}

/-! ### Instances -/

theorem keepsList_instantiate (h : u.instantiate b line = .ok v) : u.KeepsList v := by
  intro hu
  obtain ⟨line', label, slots⟩ := u
  cases label with
  | list kind =>
      rw [Template.instantiate_node b line line' (by simp) (by simp)] at h
      obtain ⟨vs, -, h⟩ := bind_eq_ok.mp h
      cases h
      exact hu
  | _ => cases hu

/-- An instance of a template with trees whose declarations have bodies is such a tree. -/
theorem Bodied.instantiate (hu : u.Bodied) (hshape : u.hasShape = true)
    (hb : ∀ x ∈ b, x.2.Bodied) (h : u.instantiate b line = .ok v) : v.Bodied := by
  induction u using Tree.induct generalizing v with
  | node line' label slots ih =>
      rcases label.capture_or with ⟨name, rfl⟩ | hcapture
      · exact hb _ (TreeBindings.mem_of_get? (get?_of_instance h))
      · obtain ⟨vs, hvs, rfl⟩ := exists_slots_of_instance hcapture hshape h
        have hbelow := (hasShape_node.mp hshape).1
        refine hu.replace (fun v hv => ?_) ?_
        · obtain ⟨u, hmem, hinstance⟩ := hvs.exists_of_mem hv
          exact ih u hmem (Bodied.hereditary _ _ _ hu u hmem) (hbelow u hmem) hinstance
        · exact hvs.imp fun o o' h => by
            cases h with
            | none => exact .none
            | some h => exact .some (keepsList_instantiate h)

end Tree

namespace Rewriter

variable {r : Rewriter} {bound apps growth : Nat} {t u : Tree} {s s' : Summary} {b : TreeBindings}
  {slots us : List (Option Tree)} {side : Pattern × Template}

/-- No rule has a list for its pattern and something else for its template, and the templates are
made as programs are. -/
structure KeepsLists (r : Rewriter) : Prop where
  shaped : ∀ side ∈ r.sides, side.2.tree.hasShape = true
  bodied : ∀ side ∈ r.sides, side.2.tree.Bodied
  lists : ∀ side ∈ r.sides, side.1.tree.KeepsList side.2.tree

/-- Nothing is in normal form if one of the patterns is a mere capture. -/
theorem Normal.not_capture (h : r.Normal t) (hside : side ∈ r.sides) (line : Nat) (name : String)
    (slots : List (Option Tree)) : side.1.tree ≠ .node line (.capture name) slots := by
  intro heq
  have hnone := RuleStore.treeMatch_of_firstOn_none h.firstOn hside
  rw [heq, Matcher.treeMatch_capture] at hnone
  cases hnone

/-- Where a pattern that is no mere capture matches a list with statements in normal form, the
pattern is a list. -/
theorem keepsList_of_match (hside : side ∈ r.sides)
    (hcapture : ∀ line name slots, side.1.tree ≠ .node line (.capture name) slots)
    (hbelow : ∀ u, some u ∈ t.slots → r.Normal u)
    (hmatch : (Pass.matcher r.config).treeMatch true side.1.tree t [] = some b) :
    t.KeepsList side.1.tree := by
  intro ht
  cases hp : side.1.tree with
  | node line label slots =>
      cases hopen : (node line label slots).isOpen with
      | true =>
          have hlabel (name : String) : label ≠ .capture name := by
            rintro rfl
            exact hcapture line name slots hp
          rw [isOpen_node hlabel, Bool.and_eq_true] at hopen
          exact hopen.1
      | false =>
          have hclosed : side.1.tree.isOpen = false := hp ▸ hopen
          have hseen := seenTree_of_match hside hclosed hbelow hmatch
          rw [hp, Matcher.treeMatch_of_isOpen hopen, hseen] at hmatch
          split at hmatch
          · rename_i hsame
            obtain ⟨line', label', slots'⟩ := t
            have hlabel : label.same label' = true := hsame.1
            cases label <;> cases label' <;> simp_all [Label.same, Label.isStmtList, Tree.label]
          · cases hmatch

theorem visitSlots_bodied {visit : Visitor}
    (hvisit : ∀ t s result, t.Bodied → visit t s = .ok result →
      result.1.Bodied ∧ t.KeepsList result.1)
    (hslots : ∀ t, some t ∈ slots → t.Bodied)
    (h : visitSlots (r.visitChild growth visit) slots s = .ok (us, s')) :
    (∀ u, some u ∈ us → u.Bodied) ∧ List.Forall₂ (Option.Rel KeepsList) slots us := by
  induction slots generalizing s us s' with
  | nil =>
      cases h
      exact ⟨by simp, .nil⟩
  | cons o rest ih =>
      have hrest := fun t ht => hslots t (List.mem_cons_of_mem o ht)
      cases o with
      | none =>
          obtain ⟨⟨vs, s₁⟩, hvs, h⟩ := bind_eq_ok.mp h
          cases h
          obtain ⟨hbodied, hkeeps⟩ := ih hrest hvs
          exact ⟨by simpa using hbodied, .cons .none hkeeps⟩
      | some t =>
          obtain ⟨⟨v, s₁⟩, hfirst, h⟩ := bind_eq_ok.mp h
          obtain ⟨⟨vs, s₂⟩, hvs, h⟩ := bind_eq_ok.mp h
          cases h
          obtain ⟨hbodied, hkeeps⟩ := ih hrest hvs
          simp only [visitChild] at hfirst
          split at hfirst
          · cases hfirst
          · obtain ⟨hv, hkeep⟩ := hvisit _ _ _ (hslots t List.mem_cons_self) hfirst
            refine ⟨fun u hu => ?_, .cons (.some hkeep) hkeeps⟩
            rcases List.mem_cons.mp hu with heq | hu
            · cases heq
              exact hv
            · exact hbodied u hu

/-- Rewriting that succeeds keeps the bodies of declarations, and a list at the root. -/
theorem rewrite_bodied (h : r.KeepsLists) {result : Tree × Summary} (ht : t.Bodied)
    (hok : r.rewrite bound apps growth t s = .ok result) :
    result.1.Bodied ∧ t.KeepsList result.1 := by
  induction bound generalizing apps growth t s result with
  | zero => cases hok
  | succ bound ih =>
      have hnormal : r.Normal result.1 := (rewrite_ok hok).normal
      obtain ⟨line, label, slots⟩ := t
      obtain ⟨⟨us, s₁⟩, hslots, hok⟩ := bind_eq_ok.mp hok
      obtain ⟨hbelow, -⟩ := visitSlots_ok (fun _ _ _ h => rewrite_ok h) hslots
      obtain ⟨hbodied, hkeeps⟩ := visitSlots_bodied (fun _ _ _ ht h => ih ht h)
        (Bodied.hereditary _ _ _ ht) hslots
      have hnode : (Tree.node line label us).Bodied := ht.replace hbodied hkeeps
      simp only [settle] at hok
      split at hok
      · cases hok
        exact ⟨hnode, id⟩
      · rename_i i u b hfirst
        obtain ⟨p, hside, hmatch⟩ := RuleStore.exists_of_firstOn hfirst
        split at hok
        · cases hok
        · split at hok
          · cases hok
          · rename_i v hv
            have hb : ∀ x ∈ b, x.2.Bodied :=
              Matcher.treeMatch_forall Bodied.hereditary _ _ _ _ _ _ hnode (by simp) hmatch
            have hv' : v.Bodied := (h.bodied _ hside).instantiate (h.shaped _ hside) hb hv
            have hpattern : (Tree.node line label us).KeepsList p.tree :=
              keepsList_of_match hside (hnormal.not_capture hside) hbelow hmatch
            obtain ⟨hresult, hkeep⟩ := ih hv' hok
            -- at a list the pattern is a list, hence so are the template and its instance
            exact ⟨hresult,
              fun hlist => hkeep (keepsList_instantiate hv (h.lists _ hside (hpattern hlist)))⟩

end Rewriter

namespace Engine

variable {e : Engine} {a : Arena} {root : NodeId} {t : Tree} {steps : Nat} {s : Summary}

/-- A pass that ends well makes a program of a program. -/
theorem processWithin_isProgram (he : e.Reached)
    (hlists : ∀ side ∈ e.rules.sides, side.1.tree.KeepsList side.2.tree) (h : a.TreeShaped root)
    (ht : a.tree root = .ok t) (hprogram : t.IsProgram)
    (hok : (e.processWithin steps a).result = .ok s) :
    (e.processWithin steps a).arena.root = some root ∧
      ∃ u, (e.processWithin steps a).arena.tree root = .ok u ∧ u.IsProgram := by
  by_cases hrules : e.rules.size = 0
  · rw [processWithin_of_noRules hrules]
    exact ⟨h.root_eq, t, ht, hprogram⟩
  · obtain ⟨l, rfl, ha⟩ := h.exists_owns
    cases ha.holds_all.tree_eq.symm.trans ht
    obtain ⟨hresult, hleft⟩ :=
      matches_of_ended ha h.root_eq hrules (Nat.le_refl steps) (by simp [hok])
    rw [hok] at hresult
    cases houtcome : (e.rewriter a.origin).rewriteUnit steps l.tree with
    | error x =>
        rw [houtcome] at hresult
        cases hresult
    | ok result =>
        obtain ⟨hroot, hu⟩ := hleft result.1 result.2 houtcome
        have hkeeps : (e.rewriter a.origin).KeepsLists :=
          ⟨fun side hside => (he.compiled side hside).shaped,
            he.forall_sides fun _ _ _ _ _ => SnippetReader.bodied_of_rule, hlists⟩
        obtain ⟨hbodied, hlist⟩ := Rewriter.rewrite_bodied hkeeps hprogram.bodied houtcome
        exact ⟨hroot, result.1, hu, hlist hprogram.root, hbodied⟩

/-- If no rule turns a statement list into something else, a pass that ends well over a unit that
was parsed leaves a statement list at the root, and one in the slot for the body of each function,
closure and class and of each method that has a body. -/
theorem processWithin_parsed_isProgram {sigil : Char} {source origin : String} (he : e.Reached)
    (hlists : ∀ side ∈ e.rules.sides, side.1.tree.KeepsList side.2.tree)
    (hparse : parseUnit sigil source origin = .ok a)
    (hok : (e.processWithin steps a).result = .ok s) :
    ∃ root t, (e.processWithin steps a).arena.root = some root ∧
      (e.processWithin steps a).arena.tree root = .ok t ∧ t.IsProgram := by
  obtain ⟨root, t, hread, hshape, ht⟩ := Arena.exists_readProgram hparse
  have hblock : t.IsPart sigil .block := readProgram_isPart hread
  obtain ⟨hroot, u, hu, hprogram⟩ :=
    processWithin_isProgram he hlists hshape ht ⟨hblock.block_label, hblock.bodied⟩ hok
  exact ⟨root, u, hroot, hu, hprogram⟩

def twoCalls : Tree :=
  let call (name : String) : Tree := .fixed .call [some (.name name 1), some (.list .argList [] 1)] 1
  .list .stmtList
    [.node 1 (.decl .function "f" 0)
      [some (.list .paramList [] 1), none, some (.list .stmtList [call "a", call "b"] 1), none]] 1

theorem readProgram_twoCalls :
    readProgram defaultSigil "function f() \x7b a(); b(); \x7d".toList = .ok twoCalls :=
  readProgram_of_toOption (by decide +kernel)

def shiftCalls : Engine :=
  ((Engine.new defaultSigil {}).register [⟨"a(); b();", "b(); c();"⟩]).2

theorem processWithin_shiftCalls :
    ∃ a root t, shiftCalls.Reached ∧
      parseUnit defaultSigil "function f() \x7b a(); b(); \x7d" "unit" = .ok a ∧
      (∀ side ∈ shiftCalls.rules.sides, side.1.tree.KeepsList side.2.tree) ∧
      (shiftCalls.processWithin 60 a).result = .ok ⟨1, 16⟩ ∧
      (shiftCalls.processWithin 60 a).arena.tree root = .ok t ∧ t.IsProgram := by
  have hreached : shiftCalls.Reached := by
    rw [shiftCalls]
    exact (Reached.new defaultSigil {}).register [⟨"a(); b();", "b(); c();"⟩]
  have hlists : ∀ side ∈ shiftCalls.rules.sides, side.1.tree.KeepsList side.2.tree := by
    have hcheck : (shiftCalls.rules.sides.all fun side => side.2.tree.label.isStmtList) = true := by
      decide +kernel
    exact fun side hside _ => List.all_eq_true.mp hcheck side hside
  have hparse : parseUnit defaultSigil "function f() \x7b a(); b(); \x7d" "unit" =
      .ok (.ofTree "unit" twoCalls) := by
    rw [parseUnit_eq, readProgram_twoCalls]
  have hok : (shiftCalls.processWithin 60 (.ofTree "unit" twoCalls)).result = .ok ⟨1, 16⟩ := by
    decide +kernel
  obtain ⟨root, t, -, ht, hprogram⟩ :=
    processWithin_parsed_isProgram hreached hlists hparse hok
  exact ⟨_, root, t, hreached, hparse, hlists, hok, ht, hprogram⟩

def joinCalls : Engine :=
  ((Engine.new defaultSigil {}).register [⟨"a(); b();", "x = 1;"⟩]).2

def joinedCalls : Tree :=
  .list .stmtList
    [.node 1 (.decl .function "f" 0)
      [some (.list .paramList [] 1), none,
        some (.fixed .assign [some (.var "x" 1), some (.literal (.int 1) 1)] 1), none]] 1

/-- Its body is none any more. -/
theorem joinedCalls_not_isProgram : ¬ joinedCalls.IsProgram := by
  intro h
  have hfunction := Bodied.hereditary _ _ _ h.bodied _ List.mem_cons_self
  cases hfunction with
  | mk below here =>
      obtain ⟨body, hbody, hfits⟩ := here .function "f" 0 rfl
      cases hbody
      cases hfits

/-- The assignment is put into the slot for the body, and its parts are printed as statements. -/
theorem processWithin_joinCalls :
    ∃ a root t, joinCalls.Reached ∧
      parseUnit defaultSigil "function f() \x7b a(); b(); \x7d" "unit" = .ok a ∧
      (joinCalls.processWithin 60 a).result = .ok ⟨1, 13⟩ ∧
      (joinCalls.processWithin 60 a).arena.root = some root ∧
      (joinCalls.processWithin 60 a).arena.tree root = .ok t ∧ ¬ t.IsProgram ∧
      (joinCalls.processWithin 60 a).arena.source =
        .ok "function f() \x7b\n    x;\n    1;\n\x7d" := by
  have hreached : joinCalls.Reached := by
    rw [joinCalls]
    exact (Reached.new defaultSigil {}).register [⟨"a(); b();", "x = 1;"⟩]
  have hparse : parseUnit defaultSigil "function f() \x7b a(); b(); \x7d" "unit" =
      .ok (.ofTree "unit" twoCalls) := by
    rw [parseUnit_eq, readProgram_twoCalls]
  have hok : (joinCalls.processWithin 60 (.ofTree "unit" twoCalls)).result = .ok ⟨1, 13⟩ := by
    decide +kernel
  have hroot : (joinCalls.processWithin 60 (.ofTree "unit" twoCalls)).arena.root = some 9 := by
    decide +kernel
  have htree : (joinCalls.processWithin 60 (.ofTree "unit" twoCalls)).arena.tree 9 =
      .ok joinedCalls := by
    decide +kernel
  have hsource : (joinCalls.processWithin 60 (.ofTree "unit" twoCalls)).arena.source =
      .ok "function f() \x7b\n    x;\n    1;\n\x7d" := by
    decide +kernel
  exact ⟨_, 9, joinedCalls, hreached, hparse, hok, hroot, htree, joinedCalls_not_isProgram, hsource⟩

end Engine

end SnippetRewrite
