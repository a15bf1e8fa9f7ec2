import SnippetRewrite.Proofs.Parse.PairedGrammar

/-!
Two readers that make the same trees. What is said of the trees besides is a property that goes on to
hold behind them, and that a node has if its children have it.
-/

namespace SnippetRewrite

/-- Something that is followed through a text: a property of places, one of identifiers, and one of
trees with the place behind them. -/
structure Following where
  Here : Cursor → Prop
  Word : String → Prop
  Holds : Tree → Cursor → Prop
  /-- The row of a line: the line itself, or the same for all where their order does not count. -/
  row : Nat → Nat

namespace Following

/-- What a step of a reader needs. -/
class Kept (r : Following) : Prop where
  here {c d : Cursor} (h : r.Here c) (hd : c.Reaches d) : r.Here d
  mark {text : String} (h : r.Word text) : r.Word ("?" ++ text)
  row_mono {line line' : Nat} (h : line ≤ line') : r.row line ≤ r.row line'
  holds {t : Tree} {c d : Cursor} (h : r.Holds t c) (hd : c.Reaches d) : r.Holds t d
  row_le {t : Tree} {c : Cursor} (h : r.Holds t c) : r.row t.line ≤ r.row c.position.line
  name {text : String} {line : Nat} {c : Cursor} (h : r.Word text)
    (hline : r.row line ≤ r.row c.position.line) : r.Holds (.name text line) c
  /-- A node that spells no name. -/
  node {line : Nat} {label : Label} {slots : List (Option Tree)} {c : Cursor}
    (hlabel : label.nameText? = none) (hcapture : label.kind ≠ .capture)
    (hslots : ∀ o ∈ slots, ∀ t ∈ o, r.Holds t c ∧ r.row line ≤ r.row t.line)
    (hline : r.row line ≤ r.row c.position.line) : r.Holds (.node line label slots) c

def pairing (r : Following) (failures : Prop) (limit : Nat) : Pairing (Except SyntaxFailure) Tree where
  State := Unit
  run x _ := x.map fun v => (v, ())
  Inv s c _ := r.Here c ∧ ∀ p ∈ s, p.2 = p.1 ∧ r.Holds p.1 c
  Word := r.Word
  row := r.row
  failures := failures
  limit := limit

variable {r : Following} {failures : Prop} {limit : Nat} {s owed : Owed Tree} {c d : Cursor} {a : Unit}

/-- The same tree is owed on both sides. -/
theorem inv_push {t : Tree} (h : (r.pairing failures limit).Inv s c a) (ht : r.Holds t c) :
    (r.pairing failures limit).Inv (s ++ [(t, t)]) c a :=
  ⟨h.1, List.forall_mem_append.mpr ⟨h.2, by simpa using ht⟩⟩

theorem inv_append : (r.pairing failures limit).Inv (s ++ owed) c a ↔
    (r.pairing failures limit).Inv s c a ∧ ∀ p ∈ owed, p.2 = p.1 ∧ r.Holds p.1 c := by
  simp only [pairing, List.forall_mem_append, and_assoc]

/-- What holds of the nodes owed last, slot by slot. -/
theorem forall_slots_of_inv {slots : List (Option (Tree × Tree))}
    (h : (r.pairing failures limit).Inv (s ++ slots.flatMap Option.toList) c a) :
    ∀ o ∈ slots, ∀ p ∈ o, p.2 = p.1 ∧ r.Holds p.1 c :=
  fun o ho p hp => (inv_append.mp h).2 p (List.mem_flatMap.mpr ⟨o, ho, Option.mem_toList.mpr hp⟩)

section

variable {α β : Type} {x : PlainReader α} {y : PlainReader β} {v : α} {failure : SyntaxFailure}
  {Q : α → β → Owed Tree → Cursor → Prop}

theorem ok_of_rel (h : (r.pairing failures limit).Rel s c x y Q)
    (hs : (r.pairing failures limit).Inv s c ()) (hx : x c = .ok (v, d)) :
    c.Reaches d ∧ ∃ w s', y c = .ok (w, d) ∧ (r.pairing failures limit).Inv s' d () ∧ Q v w s' d := by
  obtain ⟨hd, w, s', b, hy, hinv, hQ⟩ := (h () hs).1 v d hx
  refine ⟨hd, w, s', ?_, hinv, hQ⟩
  cases hyc : y c with
  | error failure => exact nomatch hyc ▸ hy
  | ok z =>
      rw [hyc] at hy
      cases hy
      rfl

theorem error_of_rel (h : (r.pairing failures limit).Rel s c x y Q)
    (hs : (r.pairing failures limit).Inv s c ()) (hx : x c = .error failure) :
    c.Reaches failure.place ∧ (failure.cause = .nesting → failure.place.rest.length < limit) ∧
      (failure.cause ≠ .nesting → failures → y c = .error failure) := by
  obtain ⟨hplace, hlimit, hfails⟩ := (h () hs).2 failure hx
  refine ⟨hplace, hlimit, fun hcause hk => ?_⟩
  have hy := hfails hcause hk
  cases hyc : y c with
  | error failure' =>
      rw [hyc] at hy
      cases hy
      rfl
  | ok z => exact nomatch hyc ▸ hy

end

variable [r.Kept]

/-- A node of nodes that are owed. -/
theorem inv_node {line : Nat} (label : Label) (slots : List (Option (Tree × Tree)))
    (h : (r.pairing failures limit).Inv s c a)
    (hslots : ∀ o ∈ slots, ∀ p ∈ o, p.2 = p.1 ∧ r.Holds p.1 c) (hlabel : label.nameText? = none)
    (hcapture : label.kind ≠ .capture)
    (hlines : ∀ o ∈ slots, (r.pairing failures limit).Behind (r.row line) o)
    (hline : r.row line ≤ r.row c.position.line) :
    (r.pairing failures limit).Inv (s ++ [(.node line label (slots.map (Option.map Prod.fst)),
      .node line label (slots.map (Option.map Prod.snd)))]) c a := by
  have hsame : slots.map (Option.map Prod.snd) = slots.map (Option.map Prod.fst) := by
    refine List.map_congr_left fun o ho => ?_
    cases o with
    | none => rfl
    | some p => exact congrArg some (hslots _ ho p rfl).1
  rw [hsame]
  refine inv_push h (Kept.node hlabel hcapture (fun o ho t ht => ?_) hline)
  obtain ⟨p?, hp?, rfl⟩ := List.mem_map.mp ho
  obtain ⟨p, rfl, rfl⟩ := Option.map_eq_some_iff.mp ht
  exact ⟨(hslots _ hp? p rfl).2, hlines _ hp? p rfl⟩

instance : (r.pairing failures limit).Lawful where
  run_pure _ _ := rfl
  run_bind x f a := by cases x <;> rfl
  run_throw _ _ := rfl
  mark := Kept.mark
  row_mono := Kept.row_mono
  row_le_of_mem h hp := Kept.row_le (h.2 _ hp).2
  moves h hd := ⟨Kept.here h.1 hd, fun p hp => ⟨(h.2 p hp).1, Kept.holds (h.2 p hp).2 hd⟩⟩
  name h htext hline := ⟨_, _, rfl, inv_push h (Kept.name htext hline)⟩
  var h htext hline :=
    ⟨_, _, rfl, inv_push h (Kept.node rfl nofun
      (by simpa using ⟨Kept.name htext hline, Nat.le_refl _⟩) hline)⟩
  literal value h hline := ⟨_, _, rfl, inv_push h (Kept.node rfl nofun (by simp) hline)⟩
  fixed h harity hslots hline :=
    ⟨_, _, rfl, inv_node _ _ (inv_append.mp h).1 (forall_slots_of_inv h) rfl nofun hslots hline⟩
  decl name flags h harity hslots hline :=
    ⟨_, _, rfl, inv_node _ _ (inv_append.mp h).1 (fun o ho => forall_slots_of_inv h o
      ((swapLast_perm _).mem_iff.mpr ho)) rfl nofun hslots hline⟩
  list {s items c a line} kind h hitems hline := by
    refine ⟨_, a, rfl, ?_⟩
    obtain ⟨howed, hsame⟩ := inv_append.mp h
    have hnode := inv_node (.list kind) (items.map some) howed
      (List.forall_mem_map.mpr fun p hp => by rintro _ ⟨⟩; exact hsame p hp) rfl nofun
      (List.forall_mem_map.mpr fun p hp => Pairing.behind_some.mpr (hitems p hp)) hline
    simpa only [Tree.list, List.map_map, Function.comp_def, Option.map_some] using hnode
  lineOf {s c a t w} h hw := by
    obtain rfl : w = t := (h.2 _ hw).1
    rfl

def nothing : Following where
  Here _ := True
  Word _ := True
  Holds _ _ := True
  row _ := 0

instance : nothing.Kept where
  here _ _ := trivial
  mark _ := trivial
  row_mono _ := Nat.le_refl _
  holds _ _ := trivial
  row_le _ := Nat.le_refl _
  name _ _ := trivial
  node _ _ _ _ := trivial

end Following

/-- What is read as a program in step with another grammar. -/
theorem Grammar.program_of_paired {r : Following} [r.Kept] {failures : Prop} {sigil sigil' : Char}
    {source : List Char}
    (hwords : SameWords (r.pairing failures 0) sigil sigil' (source.length + 1))
    (hhere : r.Here (Cursor.start source)) {length : Nat} (hlength : source.length ≤ length) :
    (∀ t d, (ofLength sigil source.length : TreeGrammar).program (Cursor.start source) = .ok (t, d) →
      (ofLength sigil' length : TreeGrammar).program (Cursor.start source) = .ok (t, d) ∧
        (Cursor.start source).Reaches d ∧ r.Holds t d ∧ r.row 1 ≤ r.row t.line) ∧
    ∀ failure, (ofLength sigil source.length : TreeGrammar).program (Cursor.start source) =
        .error failure →
      (Cursor.start source).Reaches failure.place ∧ failure.cause ≠ .nesting ∧
        (failures → (ofLength sigil' length : TreeGrammar).program (Cursor.start source) =
          .error failure) := by
  have hrel := ofLength_program_paired (k := r.pairing failures 0) (s := []) (c := Cursor.start source)
    hwords (Nat.le_refl _) hlength
  have hstart : (r.pairing failures 0).Inv [] (Cursor.start source) () := ⟨hhere, by simp⟩
  refine ⟨fun t d h => ?_, fun failure h => ?_⟩
  · obtain ⟨hd, w, s', hy, hinv, rfl, hline, -⟩ := Following.ok_of_rel hrel hstart h
    obtain ⟨rfl, ht⟩ : w = t ∧ r.Holds t d := hinv.2 (t, w) (by simp)
    exact ⟨hy, hd, ht, hline⟩
  · obtain ⟨hplace, hlimit, hfails⟩ := Following.error_of_rel hrel hstart h
    have hcause : failure.cause ≠ .nesting := fun h => Nat.not_lt_zero _ (hlimit h)
    exact ⟨hplace, hcause, hfails hcause⟩

end SnippetRewrite
