import SnippetRewrite.Proofs.Rewrite.Limit
import SnippetRewrite.Proofs.Rewrite.LineOrder
import SnippetRewrite.Proofs.Rewrite.Shrinking

/-!
Rules that stand behind a more general one. If an assignment to the captures of a pattern turns it
into a second pattern, the first matches whatever the second does: where the first repeats a capture,
the second repeats a whole part, and trees that the same part matches under bindings that agree are
equal. The first rule that matches wins, so a rule behind a more general one is never applied.
-/

namespace SnippetRewrite

namespace TreeBindings

/-- Subtrees bound so far stand where a second pattern has matched the trees assigned to the names;
what it has bound there is among its bindings `b`. -/
def Backed (f : Assignment) (s b : TreeBindings) : Prop :=
  ∀ name t, s.get? name = some t → ∃ direct q c d, (f name).same q = true ∧
    Matcher.plain.treeMatch direct q t c = some d ∧ d.Keeps b

theorem Backed.keeps {f : Assignment} {s b c : TreeBindings} (h : s.Backed f b) (hc : b.Keeps c) :
    s.Backed f c := by
  intro name t ht
  obtain ⟨direct, q, d, d', hq, hmatch, hkeeps⟩ := h name t ht
  exact ⟨direct, q, d, d', hq, hmatch, hkeeps.trans hc⟩

end TreeBindings

/-- No node that is not a capture point has the label of one. -/
theorem Label.ne_capture_of_same {label label' : Label} (h : label.same label' = true)
    (hlabel : ∀ name, label ≠ .capture name) (name : String) : label' ≠ .capture name := by
  rintro rfl
  cases label with
  | capture other => exact hlabel other rfl
  | _ => simp [Label.same] at h

namespace Matcher

open SnippetRewrite.Tree

variable {b c b' c' : TreeBindings} {name : String} {t : Tree} {f : Assignment}

theorem get?_of_bindTree (h : bindTree b name t = some c) :
    ∃ u, c.get? name = some u ∧ (u = t ∨ u.same t = true) := by
  simp only [bindTree] at h
  cases hb : b.get? name with
  | none =>
      rw [hb] at h
      cases h
      exact ⟨t, by simp [TreeBindings.get?_append, hb, TreeBindings.get?_singleton], .inl rfl⟩
  | some u =>
      simp only [hb] at h
      split at h
      · rename_i hsame
        cases h
        exact ⟨u, hb, .inr hsame⟩
      · cases h

theorem same_of_bindTree {u : Tree} (h : bindTree b name t = some c) (hb : b.get? name = some u) :
    u.same t = true := by
  simp only [bindTree, hb] at h
  split at h
  · assumption
  · cases h

/-! What a match of child slots goes through, by the first slot of the pattern. -/

variable {m : Matcher} {p : Tree} {ps ts : List (Option Tree)}

theorem eq_nil_of_treeMatchSlots (h : m.treeMatchSlots [] ts b = some c) : ts = [] ∧ b = c := by
  rcases ts with _ | ⟨_ | t, ts⟩ <;> simp_all [treeMatchSlots]

theorem exists_none_of_treeMatchSlots (h : m.treeMatchSlots (none :: ps) ts b = some c) :
    ∃ rest, ts = none :: rest ∧ m.treeMatchSlots ps rest b = some c := by
  rcases ts with _ | ⟨_ | t, ts⟩ <;> simp_all [treeMatchSlots]

theorem exists_some_of_treeMatchSlots (h : m.treeMatchSlots (some p :: ps) ts b = some c) :
    ∃ t rest d, ts = some t :: rest ∧ m.treeMatch true p t b = some d ∧ b.Keeps d ∧
      m.treeMatchSlots ps rest d = some c ∧ d.Keeps c := by
  rcases ts with _ | ⟨_ | t, ts⟩
  · simp [treeMatchSlots] at h
  · simp [treeMatchSlots] at h
  · obtain ⟨d, hd, h⟩ := Option.bind_eq_some_iff.mp h
    exact ⟨t, ts, d, rfl, hd, (treeMatch_covers m p true t b d hd).keeps, h,
      (treeMatchSlots_covers m ps ts d c h).keeps⟩

mutual

/-- Trees that equal patterns match are equal, if the second match sees what the first has bound. -/
theorem same_of_treeMatch (direct direct' : Bool) : (p q t u : Tree) → (b c b' c' : TreeBindings) →
    p.same q = true → plain.treeMatch direct p t b = some c →
    plain.treeMatch direct' q u b' = some c' → c.Keeps b' → t.same u = true
  | .node line label slots, q, t, u, b, c, b', c', hpq, hp, hq, hkeeps => by
    obtain ⟨line', label', slots'⟩ := q
    rw [same, Bool.and_eq_true] at hpq
    rcases label.capture_or with ⟨name, rfl⟩ | hlabel
    · obtain rfl : label' = .capture name := by
        cases label' <;> simp_all [Label.same]
      rw [plain_capture] at hp hq
      obtain ⟨v, hv, hvt⟩ := get?_of_bindTree hp
      have hvu := same_of_bindTree hq (hkeeps name v hv)
      rcases hvt with rfl | hvt
      · exact hvu
      · exact same_trans _ _ _ (same_symm hvt) hvu
    · have hlabel' := Label.ne_capture_of_same hpq.1 hlabel
      rw [plain_node direct line hlabel] at hp
      rw [plain_node direct' line' hlabel'] at hq
      split at hp
      · rename_i hlt
        split at hq
        · rename_i hlu
          obtain ⟨lt, labelt, slotst⟩ := t
          obtain ⟨lu, labelu, slotsu⟩ := u
          have hlabels := Label.same_trans hpq.1 hlu.1
          rw [Label.same_comm] at hlt
          rw [same, Bool.and_eq_true]
          exact ⟨Label.same_trans hlt.1 hlabels,
            sameSlots_of_treeMatch slots slots' slotst slotsu b c b' c' hpq.2 hp hq hkeeps⟩
        · cases hq
      · cases hp
termination_by structural p => p

theorem sameSlots_of_treeMatch : (ps qs ts us : List (Option Tree)) → (b c b' c' : TreeBindings) →
    sameSlots ps qs = true → plain.treeMatchSlots ps ts b = some c →
    plain.treeMatchSlots qs us b' = some c' → c.Keeps b' → sameSlots ts us = true
  | [], qs, ts, us, b, c, b', c', hpq, hp, hq, _ => by
    obtain rfl := eq_nil_of_sameSlots hpq
    rw [(eq_nil_of_treeMatchSlots hp).1, (eq_nil_of_treeMatchSlots hq).1]
    rfl
  | none :: ps, qs, ts, us, b, c, b', c', hpq, hp, hq, hkeeps => by
    obtain ⟨qs, rfl, hpq⟩ := exists_none_of_sameSlots hpq
    obtain ⟨ts, rfl, hp⟩ := exists_none_of_treeMatchSlots hp
    obtain ⟨us, rfl, hq⟩ := exists_none_of_treeMatchSlots hq
    exact sameSlots_of_treeMatch ps qs ts us b c b' c' hpq hp hq hkeeps
  | some p :: ps, qs, ts, us, b, c, b', c', hpq, hp, hq, hkeeps => by
    obtain ⟨q, qs, rfl, hfirst, hrest⟩ := exists_some_of_sameSlots hpq
    obtain ⟨t, ts, d, rfl, hd, -, hp, hdc⟩ := exists_some_of_treeMatchSlots hp
    obtain ⟨u, us, d', rfl, hd', hbd', hq, -⟩ := exists_some_of_treeMatchSlots hq
    rw [sameSlots, Bool.and_eq_true]
    exact ⟨same_of_treeMatch true true p q t u b d b' d' hfirst hd hd' (hdc.trans hkeeps),
      sameSlots_of_treeMatch ps qs ts us d c d' c' hrest hp hq (hkeeps.trans hbd')⟩
termination_by structural ps => ps

end

mutual

/-- A pattern matches what an instance of it matches. -/
theorem treeMatch_of_subst (direct : Bool) : (p q t : Tree) → (s b c : TreeBindings) →
    (p.subst f).same q = true → plain.treeMatch direct q t b = some c → s.Backed f b →
    ∃ s', plain.treeMatch direct p t s = some s' ∧ s'.Backed f c
  | .node line label slots, q, t, s, b, c, hpq, hq, hs => by
    have hbc := (treeMatch_covers plain q direct t b c hq).keeps
    rcases label.capture_or with ⟨name, rfl⟩ | hlabel
    · rw [subst] at hpq
      rw [plain_capture]
      cases hget : s.get? name with
      | none =>
          refine ⟨s ++ [(name, t)], by simp only [bindTree, hget], fun other u hu => ?_⟩
          rw [TreeBindings.get?_append, TreeBindings.get?_singleton] at hu
          cases hother : s.get? other with
          | some v =>
              rw [hother, Option.some_or] at hu
              exact hs.keeps hbc other u (hother.trans hu)
          | none =>
              rw [hother, Option.none_or] at hu
              split at hu
              · rename_i heq
                cases hu
                exact ⟨direct, q, b, c, heq ▸ hpq, hq, .refl c⟩
              · cases hu
      | some u =>
          -- the name has been met before, where another copy of the same part has matched
          obtain ⟨direct', q', d, d', hq', hmatch, hkeeps⟩ := hs name u hget
          have hqq := same_trans _ _ _ (same_symm hq') hpq
          have hsame := same_of_treeMatch direct' direct q' q u t d d' b c hqq hmatch hq hkeeps
          exact ⟨s, by simp only [bindTree, hget, hsame, if_true], hs.keeps hbc⟩
    · obtain ⟨line', label', slots'⟩ := q
      rw [subst_node f line hlabel, same, Bool.and_eq_true] at hpq
      rw [plain_node direct line' (Label.ne_capture_of_same hpq.1 hlabel)] at hq
      split at hq
      · rename_i hlabels
        have hlen := length_eq_of_sameSlots hpq.2
        rw [length_substSlots] at hlen
        rw [plain_node direct line hlabel, if_pos ⟨Label.same_trans hpq.1 hlabels.1,
          hlen.trans hlabels.2⟩]
        exact treeMatchSlots_of_subst slots slots' t.slots s b c hpq.2 hq hs
      · cases hq

theorem treeMatchSlots_of_subst : (ps qs ts : List (Option Tree)) → (s b c : TreeBindings) →
    sameSlots (substSlots f ps) qs = true → plain.treeMatchSlots qs ts b = some c → s.Backed f b →
    ∃ s', plain.treeMatchSlots ps ts s = some s' ∧ s'.Backed f c
  | [], qs, ts, s, b, c, hpq, hq, hs => by
    obtain rfl := eq_nil_of_sameSlots hpq
    obtain ⟨rfl, rfl⟩ := eq_nil_of_treeMatchSlots hq
    exact ⟨s, rfl, hs⟩
  | none :: ps, qs, ts, s, b, c, hpq, hq, hs => by
    obtain ⟨qs, rfl, hpq⟩ := exists_none_of_sameSlots hpq
    obtain ⟨ts, rfl, hq⟩ := exists_none_of_treeMatchSlots hq
    exact treeMatchSlots_of_subst ps qs ts s b c hpq hq hs
  | some p :: ps, qs, ts, s, b, c, hpq, hq, hs => by
    obtain ⟨q, qs, rfl, hfirst, hrest⟩ := exists_some_of_sameSlots hpq
    obtain ⟨t, ts, d, rfl, hd, -, hq, -⟩ := exists_some_of_treeMatchSlots hq
    obtain ⟨s₁, hs₁, hbacked⟩ := treeMatch_of_subst true p q t s b d hfirst hd hs
    obtain ⟨s₂, hs₂, hbacked₂⟩ := treeMatchSlots_of_subst ps qs ts s₁ d c hrest hq hbacked
    exact ⟨s₂, by rw [treeMatchSlots, hs₁, Option.bind_some, hs₂], hbacked₂⟩

end

end Matcher

/-! ### Rules -/

/-- An assignment to the captures of the first pattern turns it into the second. -/
def Pattern.Subsumes (p q : Pattern) : Prop :=
  ∃ f : Assignment, (p.tree.subst f).same q.tree = true

theorem Pattern.Subsumes.matches {p q : Pattern} {t : Tree} {c : TreeBindings} (h : p.Subsumes q)
    (hmatch : Matcher.plain.treeMatch true q.tree t [] = some c) :
    ∃ s, Matcher.plain.treeMatch true p.tree t [] = some s := by
  obtain ⟨f, hf⟩ := h
  obtain ⟨s, hs, -⟩ := Matcher.treeMatch_of_subst true p.tree q.tree t [] [] c hf hmatch
    fun name u hu => by cases hu
  exact ⟨s, hs⟩

namespace RuleStore

/-- The rule stands behind one with a more general pattern. -/
def Shadowed (s : RuleStore) (j : RuleId) : Prop :=
  ∃ i p q, i < j ∧ s.sides[i]? = some p ∧ s.sides[j]? = some q ∧ p.1.Subsumes q.1

theorem Shadowed.ne {s : RuleStore} {j k : RuleId} {t : Tree} {u : Template} {b : TreeBindings}
    (h : s.Shadowed j) (hfirst : firstOn .plain t 0 s.sides = some (k, u, b)) : k ≠ j := by
  rintro rfl
  obtain ⟨i, p, q, hij, hp, hq, hsubsumes⟩ := h
  obtain ⟨n, q', hk, hq', hmatch, hbefore⟩ := firstOn_spec hfirst
  rw [Nat.zero_add] at hk
  subst hk
  cases hq.symm.trans hq'
  obtain ⟨s, hs⟩ := hsubsumes.matches hmatch
  cases hs.symm.trans (hbefore i hij p hp)

end RuleStore

namespace Pass

variable {p q : Pass}

/-- The rule that an application is due for is the first whose pattern matches the tree there. -/
theorem Applies.firstOn {f : Frame} {below : List Frame} {i : RuleId} {rule : Rule} {b : Bindings}
    {n : Placement} (h : p.Applies f below i rule b) (hn : p.arena.Holds n) (hid : f.id = n.root) :
    ∃ s, RuleStore.firstOn (matcher p.config) n.tree 0 p.rules.sides =
      some (i, rule.template, s) := by
  have hfirst := h.first
  rw [hid] at hfirst
  cases hfound : RuleStore.firstOn (matcher p.config) n.tree 0 p.rules.sides with
  | none =>
      have hnone : p.rules.firstMatch (matcher p.config) p.arena n.root = .ok none :=
        RuleStore.firstAmong_of_none hn hfound
      cases hnone.symm.trans hfirst
  | some found =>
      obtain ⟨i', u, s⟩ := found
      obtain ⟨rule', b', hsome, rfl, -⟩ := RuleStore.firstAmong_of_some hn hfound
      have hsome : p.rules.firstMatch (matcher p.config) p.arena n.root =
          .ok (some (i', rule', b')) := hsome
      cases hsome.symm.trans hfirst
      exact ⟨s, rfl⟩

theorem config_run {n : Nat} (h : p.run n = .going q) : q.config = p.config :=
  run_keeps (P := fun x => x.config = p.config)
    (fun _ _ hx hstep => (restacks_of_step hstep).1.trans hx) rfl h

end Pass

namespace Engine

variable {e : Engine} {a : Arena} {root : NodeId} {i j : RuleId}

theorem PassState.config_eq {p : Pass} (hp : e.PassState a root p) : p.config = e.config := by
  obtain ⟨first, steps, hbegin, hrun⟩ := hp
  obtain ⟨children, rfl⟩ := exists_of_beginPass hbegin
  exact Pass.config_run hrun

/-- A pass makes no replacement by a rule that stands behind a more general one. -/
theorem rule_ne_of_shadowed (hplain : e.config.unwrapSingleStatements = false)
    (h : a.TreeShaped root) (hj : e.rules.Shadowed j) {steps : Nat} {r : Replacement}
    (hr : r ∈ e.replacements steps a) : r.rule ≠ j := by
  obtain ⟨root', p, hroot, hstate, hp⟩ := exists_passState_of_replacement hr
  cases hroot.symm.trans h.root_eq
  obtain ⟨f, below, rule, b, happlies, -, -⟩ := Pass.exists_applies_of_replacement hp
  obtain ⟨ctx, n, s, hdue⟩ := (hstate.coherent h).exists_due happlies
  obtain ⟨s, hfirst⟩ := happlies.firstOn hdue.holds hdue.id_eq
  have hmatcher : Pass.matcher p.config = .plain := by
    rw [Pass.matcher, hstate.config_eq]
    exact congrArg Matcher.mk hplain
  rw [hmatcher, hstate.sides_eq] at hfirst
  exact hj.ne hfirst

/-- Engines as they come about in use on units whose nodes form one tree. -/
inductive OnUnits : Engine → Prop
  | new (readerSigil : Char) (config : Config) : OnUnits (.new readerSigil config)
  | addRule {e e' : Engine} {spec : RuleSpec} {id : RuleId} (h : OnUnits e)
    (hadd : e.addRule spec = .ok (id, e')) : OnUnits e'
  | process {e : Engine} (h : OnUnits e) (steps : Nat) {a : Arena} {root : NodeId}
    (ha : a.TreeShaped root) : OnUnits (e.processWithin steps a).engine
  | setDebugTrace {e : Engine} (h : OnUnits e) (enabled : Bool) : OnUnits (e.setDebugTrace enabled)
  | takeTrace {e : Engine} (h : OnUnits e) : OnUnits e.takeTrace.2
  | clearTrace {e : Engine} (h : OnUnits e) : OnUnits e.clearTrace

theorem OnUnits.inUse (h : e.OnUnits) : e.InUse := by
  induction h with
  | new readerSigil config => exact .new readerSigil config
  | addRule _ hadd ih => exact .addRule ih hadd
  | process _ steps _ ih => exact .process ih steps _
  | setDebugTrace _ enabled ih => exact .setDebugTrace ih enabled
  | takeTrace _ ih => exact .takeTrace ih
  | clearTrace _ ih => exact .clearTrace ih

theorem config_processWithin (e : Engine) (steps : Nat) (a : Arena) :
    (e.processWithin steps a).engine.config = e.config := by
  have houtcome (s : Step) : (e.outcome s).engine.config = e.config := by
    cases s <;> rfl
  rw [processWithin]
  split
  · rfl
  · split
    · rfl
    · exact houtcome _

/-- Rules behind more general ones have never been applied, nor is there an entry for them, or for a
rule that is not registered. -/
structure Unapplied (e : Engine) : Prop where
  hits : ∀ j, e.rules.Shadowed j → e.rules.hitsOf j = 0
  entries : ∀ entry ∈ e.trace.entries, entry.rule < e.rules.size ∧ ¬ e.rules.Shadowed entry.rule

theorem Unapplied.addRule {e' : Engine} {spec : RuleSpec} {id : RuleId} (h : e.Unapplied)
    (hadd : e.addRule spec = .ok (id, e')) : e'.Unapplied := by
  obtain ⟨⟨p, t⟩, -, hadd⟩ := bind_eq_ok.mp hadd
  cases hadd
  have hsides : (e.rules.push p t).sides = e.rules.sides ++ [(p, t)] := by
    simp [RuleStore.sides, RuleStore.push, Rule.sides]
  -- a rule that was there before has the same rules in front of it
  have hold (j : RuleId) (hj : j < e.rules.size) (hshadowed : (e.rules.push p t).Shadowed j) :
      e.rules.Shadowed j := by
    obtain ⟨i, x, y, hij, hx, hy, hsubsumes⟩ := hshadowed
    rw [← RuleStore.length_sides] at hj
    rw [hsides, List.getElem?_append_left (Nat.lt_trans hij hj)] at hx
    rw [hsides, List.getElem?_append_left hj] at hy
    exact ⟨i, x, y, hij, hx, hy, hsubsumes⟩
  refine ⟨fun j hj => ?_, fun entry hentry => ?_⟩
  · show (e.rules.push p t).hitsOf j = 0
    rcases Nat.lt_or_ge j e.rules.rules.length with hlt | hge
    · have hbefore := h.hits j (hold j hlt hj)
      rwa [RuleStore.hitsOf, RuleStore.get?, RuleStore.push, List.getElem?_append_left hlt]
    · rw [RuleStore.hitsOf, RuleStore.get?, RuleStore.push, List.getElem?_append_right hge]
      cases j - e.rules.rules.length <;> rfl
  · obtain ⟨hlt, hnot⟩ := h.entries entry hentry
    refine ⟨?_, fun hshadowed => hnot (hold entry.rule hlt hshadowed)⟩
    exact Nat.lt_of_lt_of_le hlt (by simp [RuleStore.size, RuleStore.push])

theorem Unapplied.process (h : e.Unapplied) (he : e.InUse)
    (hplain : e.config.unwrapSingleStatements = false) (steps : Nat) (ha : a.TreeShaped root) :
    (e.processWithin steps a).engine.Unapplied := by
  obtain ⟨p, s, hrules, htrace, hsummary, -, hbooks, heq⟩ := exists_books he ha steps
  have haccounts := Accounts.of_books he hrules htrace hsummary hbooks
  rw [← heq] at haccounts
  have hsides := sides_processWithin e steps a
  have hsize : (e.processWithin steps a).engine.rules.size = e.rules.size := by
    rw [← RuleStore.length_sides, hsides, RuleStore.length_sides]
  have hshadowed (j : RuleId) :
      (e.processWithin steps a).engine.rules.Shadowed j ↔ e.rules.Shadowed j := by
    rw [RuleStore.Shadowed, RuleStore.Shadowed, hsides]
  refine ⟨fun j hj => ?_, fun entry hentry => ?_⟩
  · rw [hshadowed] at hj
    rw [haccounts.hits, h.hits j hj, Nat.zero_add, List.count_eq_zero]
    intro hmem
    obtain ⟨r, hr, hrule⟩ := List.mem_map.mp hmem
    exact rule_ne_of_shadowed hplain ha hj hr hrule
  · rw [hsize, hshadowed]
    cases henabled : e.trace.enabled with
    | false =>
        rw [haccounts.unlogged henabled] at hentry
        exact h.entries entry hentry
    | true =>
        obtain ⟨entries, hrecords, hlog⟩ := haccounts.logged henabled
        rw [hlog] at hentry
        rcases List.mem_append.mp (List.mem_of_mem_drop hentry) with hold | hnew
        · exact h.entries entry hold
        · obtain ⟨r, hr, hrecord⟩ := exists_replacement_of_mem hrecords hnew
          rw [hrecord.rule]
          exact ⟨hrules ▸ hbooks.registered r hr, fun hj => rule_ne_of_shadowed hplain ha hj hr rfl⟩

/-- With no list transparent, a rule that stands behind a more general one is never applied. Let an
assignment of trees to the captures of an earlier pattern make it equal to the pattern of a later
rule. Whatever else is registered, whatever units are rewritten and however the passes end, the later
rule has no hits and no trace entry names it. -/
theorem never_applied_of_subsumes (he : e.OnUnits) (hplain : e.config.unwrapSingleStatements = false)
    {r s : Rule} (hij : i < j) (hr : e.rules.get? i = some r) (hs : e.rules.get? j = some s)
    (hsubsumes : ∃ f : Assignment, (r.pattern.tree.subst f).same s.pattern.tree = true) :
    s.hits = 0 ∧ ∀ entry ∈ e.trace.entries, entry.rule ≠ j := by
  have hunapplied : e.Unapplied := by
    clear hr hs
    induction he with
    | new readerSigil config =>
        refine ⟨fun j hj => ?_, fun entry hentry => by cases hentry⟩
        obtain ⟨i, p, q, -, hp, -, -⟩ := hj
        cases hp
    | addRule _ hadd ih =>
        obtain ⟨sides, -, hadd'⟩ := bind_eq_ok.mp hadd
        cases hadd'
        exact (ih hplain).addRule hadd
    | process h steps ha ih =>
        rw [config_processWithin] at hplain
        exact (ih hplain).process h.inUse hplain steps ha
    | setDebugTrace _ enabled ih => exact ⟨(ih hplain).hits, (ih hplain).entries⟩
    | takeTrace _ ih => exact ⟨(ih hplain).hits, fun entry hentry => by cases hentry⟩
    | clearTrace _ ih => exact ⟨(ih hplain).hits, fun entry hentry => by cases hentry⟩
  have hshadowed : e.rules.Shadowed j := by
    refine ⟨i, r.sides, s.sides, hij, ?_, ?_, hsubsumes⟩
    · simpa [RuleStore.sides, RuleStore.get?] using congrArg (Option.map Rule.sides) hr
    · simpa [RuleStore.sides, RuleStore.get?] using congrArg (Option.map Rule.sides) hs
  have hhits := hunapplied.hits j hshadowed
  rw [RuleStore.hitsOf, hs] at hhits
  exact ⟨hhits, fun entry hentry heq => (hunapplied.entries entry hentry).2 (heq ▸ hshadowed)⟩

/-- An engine whose second rule stands behind the first. -/
def adding : Engine :=
  ((Engine.new defaultSigil { unwrapSingleStatements := false, debugTrace := true }).register
    [⟨"$x + $y", "add($x, $y)"⟩, ⟨"$z + $z", "2 * $z"⟩]).2

def doubledTree : Tree :=
  .list .stmtList
    [.fixed (.binary .add) [some (.literal (.int 1) 1), some (.literal (.int 1) 1)] 1] 1

/-- The sum of equal terms goes to the rule for all sums. -/
theorem adding_doubledTree :
    ∃ r s, (adding.processWithin 30 (.ofTree "unit" doubledTree)).engine.rules.get? 0 = some r ∧
      (adding.processWithin 30 (.ofTree "unit" doubledTree)).engine.rules.get? 1 = some s ∧
      r.hits = 1 ∧ s.hits = 0 ∧
      (adding.processWithin 30 (.ofTree "unit" doubledTree)).engine.trace.entries.map
        TraceEntry.rule = [0] := by
  obtain ⟨root, hunit, -⟩ := Arena.ofTree_treeShaped "unit" (t := doubledTree) (by decide)
  have hused : (adding.processWithin 30 (.ofTree "unit" doubledTree)).engine.OnUnits :=
    .process (register_keeps .addRule (.new _ _) _) 30 hunit
  have hplain : (adding.processWithin 30
      (.ofTree "unit" doubledTree)).engine.config.unwrapSingleStatements = false := by
    rw [config_processWithin, adding]
    refine register_keeps (P := fun e => e.config.unwrapSingleStatements = false) ?_ rfl _
    intro e e' spec id he hadd
    obtain ⟨sides, -, hadd⟩ := bind_eq_ok.mp hadd
    cases hadd
    exact he
  have hrules : (fun e : Engine => (e.rules.get? 0).bind fun r => (e.rules.get? 1).map fun s =>
      ((r.pattern.tree.subst fun _ => .node 1 (.capture "z") []).same s.pattern.tree, r.hits,
        e.trace.entries.map TraceEntry.rule))
      (adding.processWithin 30 (.ofTree "unit" doubledTree)).engine = some (true, 1, [0]) := by
    decide +kernel
  generalize (adding.processWithin 30 (.ofTree "unit" doubledTree)).engine = e at *
  obtain ⟨r, hr, hrules⟩ := Option.bind_eq_some_iff.mp hrules
  obtain ⟨s, hs, hrules⟩ := Option.map_eq_some_iff.mp hrules
  simp only [Prod.mk.injEq] at hrules
  obtain ⟨hsame, hhits, hlog⟩ := hrules
  obtain ⟨hnever, -⟩ :=
    never_applied_of_subsumes hused hplain Nat.zero_lt_one hr hs ⟨_, hsame⟩
  exact ⟨r, s, hr, hs, hhits, hnever, hlog⟩

end Engine

end SnippetRewrite
