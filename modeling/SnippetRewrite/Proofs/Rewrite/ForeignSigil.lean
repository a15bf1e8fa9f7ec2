import SnippetRewrite.Proofs.Parse.RoundTrip
import SnippetRewrite.Proofs.Parse.Sigil
import SnippetRewrite.Proofs.Rewrite.Accounting
import SnippetRewrite.Proofs.Rewrite.Catalogue

/-!
The catalogue under another sigil. The captures in its snippets are written with `$`. With another
sigil they are read as the same programs, but their names stand for themselves: the rules compile,
and each pattern has a name that begins with `$`. Such a pattern matches nowhere in a unit without
this character, so a compiler hands on every unit as it was read.
-/

namespace SnippetRewrite

/-! ### Trees without captures -/

namespace Label

variable {sigil : Char} {label other : Label}

theorem captureName?_eq_none (h : label.beginsBadly (· == sigil) = false) :
    label.captureName? sigil = none := by
  rw [Label.captureName?, Option.bind_eq_none_iff]
  intro text htext
  unfold SnippetRewrite.captureName?
  cases hchars : text.toList with
  | nil => rfl
  | cons first name =>
      have hfirst : first ≠ sigil := by simpa [beginsBadly, htext, hchars] using h
      simp [hfirst]

theorem nameText?_of_same (h : label.same other = true) : label.nameText? = other.nameText? := by
  unfold same at h
  split at h
  · rename_i kind value kind' value'
    obtain ⟨hkind, hvalue⟩ := Bool.and_eq_true_iff.mp h
    cases eq_of_beq hkind
    cases kind with
    | literal => rfl
    | name =>
        unfold nameText?
        cases value <;> cases value' <;> simp_all [Value.same, Value.asString?]
  all_goals first | rfl | cases h

end Label

namespace Tree

variable {bad : Char → Bool} {sigil : Char} {t : Tree}

instance (bad : Char → Bool) (t : Tree) : Decidable (t.Clean bad) :=
  inferInstanceAs (Decidable (_ = false))

theorem Clean.hereditary (bad : Char → Bool) : Hereditary (Clean bad) :=
  fun _ _ _ h => (clean_node.mp h).2

theorem captureName?_of_clean (h : t.Clean (· == sigil)) : t.captureName? sigil = none := by
  unfold captureName?
  split
  · rename_i line name rest
    obtain ⟨nameLine, label, slots⟩ := name
    have hname := (clean_node.mp h).2 _ List.mem_cons_self
    exact Label.captureName?_eq_none (clean_node.mp hname).1.1
  · exact Label.captureName?_eq_none (clean_node.mp h).1.1

mutual

/-- Nothing is marked where no name begins with the sigil. -/
theorem markCaptures_of_clean : (t : Tree) → t.Clean (· == sigil) → t.markCaptures sigil = t
  | .node line label slots, h => by
    rw [markCaptures, captureName?_of_clean h]
    exact congrArg (node line label) (markSlots_of_clean slots (clean_node.mp h).2)

theorem markSlots_of_clean : (slots : List (Option Tree)) →
    (∀ t, some t ∈ slots → t.Clean (· == sigil)) → markSlots sigil slots = slots
  | [], _ => rfl
  | none :: rest, h => by
    rw [markSlots, markSlots_of_clean rest fun t ht => h t (List.mem_cons_of_mem _ ht)]
  | some t :: rest, h => by
    rw [markSlots, markCaptures_of_clean t (h t List.mem_cons_self),
      markSlots_of_clean rest fun t ht => h t (List.mem_cons_of_mem _ ht)]

end

mutual

theorem captureNames_of_clean (seen : List String) : (t : Tree) → t.Clean bad →
    captureNames seen t = seen
  | .node line label slots, h => by
    obtain ⟨⟨-, hlabel⟩, hslots⟩ := clean_node.mp h
    rcases label.capture_or with ⟨name, rfl⟩ | hcapture
    · cases hlabel
    · rw [captureNames_node seen line hcapture]
      exact captureNamesIn_of_clean seen slots hslots

theorem captureNamesIn_of_clean (seen : List String) : (slots : List (Option Tree)) →
    (∀ t, some t ∈ slots → t.Clean bad) → captureNamesIn seen slots = seen
  | [], _ => rfl
  | none :: rest, h =>
    captureNamesIn_of_clean seen rest fun t ht => h t (List.mem_cons_of_mem _ ht)
  | some t :: rest, h => by
    rw [captureNamesIn, captureNames_of_clean seen t (h t List.mem_cons_self)]
    exact captureNamesIn_of_clean seen rest fun t ht => h t (List.mem_cons_of_mem _ ht)

end

end Tree

/-! ### Matches without captures -/

namespace Matcher

open SnippetRewrite.Tree

mutual

/-- A pattern without captures spells all names of what it matches. -/
theorem clean_of_treeMatch {bad bad' : Char → Bool} (m : Matcher) (direct : Bool) : (p t : Tree) →
    (b c : TreeBindings) → m.treeMatch direct p t b = some c → p.Clean bad' → t.Clean bad →
    p.Clean bad
  | .node line label slots, t, b, c, h, hp, ht => by
    obtain ⟨⟨-, hlabel⟩, hslots⟩ := clean_node.mp hp
    have hseen := seenTree_forall (m := m) (Clean.hereditary bad) ht
    rcases label.capture_or with ⟨name, rfl⟩ | hcapture
    · cases hlabel
    rw [treeMatch_node m direct line hcapture] at h
    split at h
    · rename_i htransparent
      have hlist : label.isStmtList = true := by
        simp only [isTransparent, Bool.and_eq_true] at htransparent
        exact htransparent.1.2
      have hname : label.beginsBadly bad = false := by
        unfold Label.isStmtList at hlist
        split at hlist
        · rfl
        · cases hlist
      exact clean_node.mpr ⟨⟨hname, hlabel⟩, clean_of_treeMatchOnly m slots t b c h hslots ht⟩
    · split at h
      · rename_i hsame
        cases hseenTree : m.seenTree t with
        | node line' label' slots' =>
            rw [hseenTree] at h hseen hsame
            obtain ⟨⟨hname, -⟩, hbelow⟩ := clean_node.mp hseen
            have hnames : label.nameText? = label'.nameText? := Label.nameText?_of_same hsame.1
            rw [Label.beginsBadly, ← hnames] at hname
            exact clean_node.mpr ⟨⟨hname, hlabel⟩,
              clean_of_treeMatchSlots m slots slots' b c h hslots hbelow⟩
      · cases h

theorem clean_of_treeMatchOnly {bad bad' : Char → Bool} (m : Matcher) :
    (slots : List (Option Tree)) → (t : Tree) → (b c : TreeBindings) →
    m.treeMatchOnly slots t b = some c → (∀ p, some p ∈ slots → p.Clean bad') → t.Clean bad →
    ∀ p, some p ∈ slots → p.Clean bad
  | [some only], t, b, c, h, hp, ht, p, hmem => by
    cases List.mem_singleton.mp hmem
    exact clean_of_treeMatch m false only t b c h (hp only List.mem_cons_self) ht
  | [], _, _, _, h, _, _, _, _ => nomatch h
  | [none], _, _, _, h, _, _, _, _ => nomatch h
  | some _ :: _ :: _, _, _, _, h, _, _, _, _ => nomatch h
  | none :: _ :: _, _, _, _, h, _, _, _, _ => nomatch h

theorem clean_of_treeMatchSlots {bad bad' : Char → Bool} (m : Matcher) :
    (ps ts : List (Option Tree)) → (b c : TreeBindings) → m.treeMatchSlots ps ts b = some c →
    (∀ p, some p ∈ ps → p.Clean bad') → (∀ t, some t ∈ ts → t.Clean bad) →
    ∀ p, some p ∈ ps → p.Clean bad
  | [], [], _, _, _, _, _, _, hmem => nomatch hmem
  | none :: ps, none :: ts, b, c, h, hp, ht, p, hmem => by
    have hrest := clean_of_treeMatchSlots m ps ts b c h
      (fun q hq => hp q (List.mem_cons_of_mem _ hq)) fun t hu => ht t (List.mem_cons_of_mem _ hu)
    exact hrest p (by simpa using hmem)
  | some q :: ps, some t :: ts, b, c, h, hp, ht, p, hmem => by
    obtain ⟨d, hd, h⟩ := Option.bind_eq_some_iff.mp h
    have hrest := clean_of_treeMatchSlots m ps ts d c h
      (fun q hq => hp q (List.mem_cons_of_mem _ hq)) fun t hu => ht t (List.mem_cons_of_mem _ hu)
    rcases List.mem_cons.mp hmem with heq | hmem
    · cases heq
      exact clean_of_treeMatch m true q t b d hd (hp q List.mem_cons_self) (ht t List.mem_cons_self)
    · exact hrest p hmem
  | [], none :: _, _, _, h, _, _, _, _ => nomatch h
  | [], some _ :: _, _, _, h, _, _, _, _ => nomatch h
  | none :: _, [], _, _, h, _, _, _, _ => nomatch h
  | none :: _, some _ :: _, _, _, h, _, _, _, _ => nomatch h
  | some _ :: _, [], _, _, h, _, _, _, _ => nomatch h
  | some _ :: _, none :: _, _, _, h, _, _, _, _ => nomatch h

end

end Matcher

/-! ### Snippets without captures -/

/-- A pattern that was read with another sigil than it was written for: it has no captures, and a
name in it begins with the default sigil. -/
def Pattern.Foreign (sigil : Char) (p : Pattern) : Prop :=
  p.tree.Clean (· == sigil) ∧ ¬ p.tree.Clean (· == defaultSigil)

namespace SnippetReader

variable {sigil : Char} {source replacement : String} {t : Tree}

/-- A snippet without the sigil is the same program as with the default one, and no name in it is
a capture. -/
theorem program_of_notMem (hsigil : isValidSigil sigil = true) (hsource : sigil ∉ source.toList) :
    (ofSigil sigil).program source = (ofSigil defaultSigil).program source ∧
      ∀ t, (ofSigil sigil).program source = .ok t → t.Clean (· == sigil) := by
  have hfree {ch : Char} (hch : isValidSigil ch = false) : sigil ≠ ch := by
    rintro rfl
    exact Bool.false_ne_true (hch.symm.trans hsigil)
  have hmark : sigil ≠ '?' := hfree (by decide +kernel)
  have hclosed : sigil ∉ (source ++ "\n;").toList := by
    rw [String.toList_append, List.mem_append, not_or]
    refine ⟨hsource, ?_⟩
    simpa using ⟨hfree (by decide +kernel : isValidSigil '\n' = false),
      hfree (by decide +kernel : isValidSigil ';' = false)⟩
  have hclean {text : List Char} {t : Tree} (htext : sigil ∉ text)
      (h : readProgram sigil text = .ok t) : t.Clean (· == sigil) :=
    clean_of_readProgram (beq_false_of_ne hmark.symm)
      (fun ch hch => beq_false_of_ne fun heq => htext (heq ▸ hch)) h
  constructor
  · simp only [program, ofSigil, readProgram_eq_default hmark hsource,
      readProgram_eq_default hmark hclosed]
  · intro t h
    simp only [program, ofSigil] at h
    split at h
    · rename_i hread
      cases h
      exact hclean hsource hread
    · split at h
      · rename_i hread
        cases h
        exact hclean hclosed hread
      · cases h

/-- A program without captures as a snippet. -/
theorem exists_snippet {r : SnippetReader} (hprogram : r.program source = .ok t)
    (hslots : t.slots.isEmpty = false) (hclean : t.Clean (· == r.sigil)) :
    ∃ s, r.snippet source = .ok s ∧ s.tree = t.unwrapSingle ∧ s.captures = [] := by
  have hunwrapped := (Tree.Clean.hereditary _).unwrapSingle hclean
  have hmarked := Tree.markCaptures_of_clean _ hunwrapped
  obtain ⟨s, hs⟩ : ∃ s, r.snippet source = .ok s := by
    simp [snippet, hprogram, hslots]
  obtain ⟨u, hu, -, htree, hcaptures⟩ := exists_program hs
  cases hprogram.symm.trans hu
  rw [hmarked] at htree
  rw [htree] at hcaptures
  exact ⟨s, hs, htree, hcaptures.trans (Tree.captureNames_of_clean [] _ hunwrapped)⟩

/-- A rule that has captures with the default sigil compiles with another one as well, but as a rule
without captures. -/
theorem exists_foreign {sides : Pattern × Template}
    (hrule : (ofSigil defaultSigil).rule source replacement = .ok sides)
    (hcaptures : sides.1.captures.isEmpty = false) (hsigil : isValidSigil sigil = true)
    (hsource : sigil ∉ source.toList) (hreplacement : sigil ∉ replacement.toList) :
    ∃ p u, (ofSigil sigil).rule source replacement = .ok (p, u) ∧ p.Foreign sigil := by
  obtain ⟨p₀, u₀⟩ := sides
  obtain ⟨hp₀, hu₀⟩ := exists_snippets hrule
  obtain ⟨p, hp, hpslots, hptree, hpcaptures⟩ := exists_program hp₀
  obtain ⟨u, hu, huslots, -, -⟩ := exists_program hu₀
  obtain ⟨hpsame, hpclean⟩ := program_of_notMem hsigil hsource
  obtain ⟨husame, huclean⟩ := program_of_notMem hsigil hreplacement
  rw [← hpsame] at hp
  rw [← husame] at hu
  obtain ⟨x, hx, hxtree, -⟩ := exists_snippet hp hpslots (hpclean p hp)
  obtain ⟨y, hy, -, hycaptures⟩ := exists_snippet hu huslots (huclean u hu)
  -- without a name that begins with the default sigil there was nothing to mark
  have hname : ¬ x.tree.Clean (· == defaultSigil) := by
    intro hclean
    rw [hxtree] at hclean
    have hmarked : p₀.tree = p.unwrapSingle := hptree.trans (Tree.markCaptures_of_clean _ hclean)
    have hnone : p₀.captures = [] := by
      rw [hpcaptures, hmarked]
      exact Tree.captureNames_of_clean [] _ hclean
    rw [hnone] at hcaptures
    cases hcaptures
  have hpattern : (ofSigil sigil).pattern source = .ok ⟨x⟩ := by
    rw [pattern, hx, ok_bind]
    split
    · rename_i line kind heq
      -- a list without items has no names at all
      refine absurd ?_ hname
      rw [heq]
      exact Tree.clean_node.mpr ⟨⟨rfl, rfl⟩, fun t ht => nomatch ht⟩
    · rfl
  have htemplate : (ofSigil sigil).template replacement = .ok ⟨y⟩ := by
    rw [template, hy]
    rfl
  refine ⟨⟨x⟩, ⟨y⟩, ?_, ?_, hname⟩
  · rw [rule, hpattern, ok_bind, htemplate, ok_bind]
    simp only [hycaptures, List.find?_nil]
    rfl
  · show x.tree.Clean _
    rw [hxtree]
    exact (Tree.Clean.hereditary _).unwrapSingle (hpclean p hp)

end SnippetReader

/-! ### Engines with the catalogue -/

/-- The catalogue as a batch of rules. It is irreducible, so that no proof compiles it by the way. -/
@[irreducible] def Catalogue.specs : List RuleSpec :=
  Catalogue.all.map fun r => ⟨r.source, r.replacement⟩

namespace Engine

variable {e : Engine} {specs : List RuleSpec}

/-- A batch is registered up to the first rule that does not compile. -/
theorem exists_sides_addRules (e : Engine) (specs : List RuleSpec) :
    ∃ added, (e.addRules specs).2.rules.sides = e.rules.sides ++ added ∧
      added.length ≤ specs.length ∧
      (added.length = specs.length → ∀ spec ∈ specs, ∃ side ∈ added,
        e.snippets.rule spec.source spec.replacement = .ok side) := by
  induction specs generalizing e with
  | nil => exact ⟨[], (List.append_nil _).symm, Nat.le_refl _, by simp⟩
  | cons spec rest ih =>
      rw [addRules_cons, addRule]
      cases hrule : e.snippets.rule spec.source spec.replacement with
      | error x =>
          exact ⟨[], (List.append_nil _).symm, Nat.zero_le _, by simp⟩
      | ok side =>
          obtain ⟨added, hsides, hle, hall⟩ := ih { e with rules := e.rules.push side.1 side.2 }
          refine ⟨side :: added, ?_, Nat.succ_le_succ hle, fun hlength => ?_⟩
          · refine hsides.trans ?_
            simp [RuleStore.sides, RuleStore.push, Rule.sides]
          · intro other hmem
            rcases List.mem_cons.mp hmem with rfl | hother
            · exact ⟨side, List.mem_cons_self, hrule⟩
            · obtain ⟨found, hfound, hcompiles⟩ := hall (Nat.succ_injective hlength) other hother
              exact ⟨found, List.mem_cons_of_mem _ hfound, hcompiles⟩

theorem addRules_ok (h : ∀ spec ∈ specs, ∃ sides,
    e.snippets.rule spec.source spec.replacement = .ok sides) : (e.addRules specs).1 = .ok () := by
  induction specs generalizing e with
  | nil => rfl
  | cons spec rest ih =>
      obtain ⟨sides, hsides⟩ := h spec List.mem_cons_self
      rw [addRules_cons, addRule, hsides]
      exact ih fun other hother => h other (List.mem_cons_of_mem _ hother)

theorem forall_sides_addRules {P : Pattern → Template → Prop}
    (h : ∀ side ∈ e.rules.sides, P side.1 side.2)
    (hrule : ∀ spec ∈ specs, ∀ p t,
      e.snippets.rule spec.source spec.replacement = .ok (p, t) → P p t) :
    ∀ side ∈ (e.addRules specs).2.rules.sides, P side.1 side.2 := by
  induction specs generalizing e with
  | nil => exact h
  | cons spec rest ih =>
      rw [addRules_cons]
      cases hadd : e.addRule spec with
      | error x => exact h
      | ok r =>
          obtain ⟨id, e'⟩ := r
          have hsides := forall_sides_addRule h hadd (hrule spec List.mem_cons_self)
          obtain ⟨side, -, hadd⟩ := bind_eq_ok.mp hadd
          cases hadd
          exact ih hsides fun other hother => hrule other (List.mem_cons_of_mem _ hother)

theorem readerSigil_addRules (e : Engine) (specs : List RuleSpec) :
    (e.addRules specs).2.readerSigil = e.readerSigil :=
  addRules_keeps (P := fun x => x.readerSigil = e.readerSigil)
    (fun hx hadd => (settings_of_addRule hadd).2.trans hx) rfl specs

theorem addCatalogue_eq (e : Engine) : e.addCatalogue =
    ((e.addRules Catalogue.specs).1.map fun _ => Catalogue.specs.length,
      (e.addRules Catalogue.specs).2) := by
  unfold addCatalogue
  rw [← Catalogue.specs]
  dsimp only
  split <;> rename_i heq <;> rw [heq] <;> rfl

theorem addCatalogue_of_compiles (h : ∀ spec ∈ Catalogue.specs, ∃ sides,
      e.snippets.rule spec.source spec.replacement = .ok sides) :
    e.addCatalogue = (.ok Catalogue.specs.length, (e.addRules Catalogue.specs).2) := by
  rw [addCatalogue_eq, addRules_ok h]
  rfl

theorem sides_catalogue : catalogueSides =
    ((Engine.new defaultSigil {}).addRules Catalogue.specs).2.rules.sides := by
  rw [catalogueSides, engine_addCatalogue, ← Catalogue.specs]

/-- With the default sigil the rules of the catalogue compile and have captures. -/
theorem catalogue_compiles : ∀ spec ∈ Catalogue.specs, ∃ sides : Pattern × Template,
    (SnippetReader.ofSigil defaultSigil).rule spec.source spec.replacement = .ok sides ∧
      sides.1.captures.isEmpty = false := by
  obtain ⟨added, hsides, -, hall⟩ :=
    exists_sides_addRules (Engine.new defaultSigil {}) Catalogue.specs
  have hadded : catalogueSides = added := by
    rw [sides_catalogue, hsides]
    exact List.nil_append added
  have hlength : added.length = Catalogue.specs.length := by
    rw [← hadded, catalogue_settles.1, Catalogue.specs, List.length_map]
  intro spec hspec
  obtain ⟨side, hside, hrule⟩ := hall hlength spec hspec
  rw [← hadded] at hside
  exact ⟨side, hrule, (catalogue_settles.2 side hside).1⟩

theorem reservedChars_eq : reservedChars =
    ['+', '-', '*', '/', '%', '.', '<', '>', '=', '!', '~', '&', '|', '^', '?', ':', ';', ',',
      '(', ')', '[', ']', '\x7b', '\x7d', '"', '\'', '#', '\\'] := by
  decide +kernel

/-- No other sigil stands in the catalogue. -/
theorem catalogue_chars : ∀ spec ∈ Catalogue.specs,
    ∀ ch ∈ spec.source.toList ++ spec.replacement.toList,
      isValidSigil ch = true → ch = defaultSigil := by
  have hcheck : (Catalogue.specs.all fun spec =>
      (spec.source.toList ++ spec.replacement.toList).all fun ch =>
        !isValidSigil ch || ch == defaultSigil) = true := by
    -- the list is spelled out so that it is not taken from its text again for each character
    unfold isValidSigil
    rw [reservedChars_eq]
    decide +kernel
  intro spec hspec ch hch hvalid
  have hchar := List.all_eq_true.mp (List.all_eq_true.mp hcheck spec hspec) ch hch
  simpa [hvalid] using hchar

/-- With another sigil they compile as well, but their patterns stand for themselves. -/
theorem catalogue_foreign {sigil : Char} (hvalid : isValidSigil sigil = true)
    (hsigil : sigil ≠ defaultSigil) : ∀ spec ∈ Catalogue.specs, ∃ p u,
      (SnippetReader.ofSigil sigil).rule spec.source spec.replacement = .ok (p, u) ∧
        p.Foreign sigil := by
  intro spec hspec
  have hnotMem : sigil ∉ spec.source.toList ++ spec.replacement.toList :=
    fun hmem => hsigil (catalogue_chars spec hspec sigil hmem hvalid)
  rw [List.mem_append, not_or] at hnotMem
  obtain ⟨sides, hrule, hcaptures⟩ := catalogue_compiles spec hspec
  exact SnippetReader.exists_foreign hrule hcaptures hvalid hnotMem.1 hnotMem.2

end Engine

/-! ### Passes with foreign rules -/

namespace Rewriter

/-- Foreign patterns match nothing in a tree without names that begin with the default sigil. -/
theorem normal_of_clean {r : Rewriter} {sigil : Char} {t : Tree}
    (hsides : ∀ side ∈ r.sides, side.1.Foreign sigil) (ht : t.Clean (· == defaultSigil)) :
    r.Normal t := by
  induction t using Tree.induct with
  | node line label slots ih =>
      refine .node (fun u hu => ih u hu (Tree.Clean.hereditary _ _ _ _ ht u hu)) ?_
      refine RuleStore.firstOn_eq_none fun side hside => Option.eq_none_iff_forall_ne_some.mpr ?_
      intro b hmatch
      obtain ⟨hclean, hname⟩ := hsides side hside
      exact hname (Matcher.clean_of_treeMatch _ _ _ _ _ _ hmatch hclean ht)

end Rewriter

namespace Engine

variable {e : Engine} {a : Arena} {root : NodeId} {t : Tree}

/-- A pass with foreign rules leaves a unit without such names as it is. -/
theorem process_of_clean {sigil : Char} (hdepth : e.config.maxDepth ≠ 0)
    (hsides : ∀ side ∈ e.rules.sides, side.1.Foreign sigil) (h : a.TreeShaped root)
    (htree : a.tree root = .ok t) (ht : t.Clean (· == defaultSigil))
    (hsteps : 2 * a.liveCount ≤ defaultSteps) : ∃ s, e.process a = ⟨.ok s, e, a⟩ := by
  obtain ⟨l, rfl, ha⟩ := h.exists_owns
  cases ha.holds_all.tree_eq.symm.trans htree
  by_cases hrules : e.rules.size = 0
  · exact ⟨.zero, processWithin_of_noRules hrules defaultSteps a⟩
  · rw [ha.liveCount_eq, ← l.size_tree] at hsteps
    exact ⟨_, processWithin_of_normal ha h.root_eq hrules (Rewriter.normal_of_clean hsides ht)
      (.inl (Nat.pos_of_ne_zero hdepth)) hsteps⟩

end Engine

/-! ### Compilers -/

namespace Config

theorem validate_eq_ok {config : Config} : config.validate = .ok () ↔
    isValidSigil config.captureSigil = true ∧ config.maxRewritesPerNode ≠ 0 ∧
      config.maxDepth ≠ 0 := by
  unfold validate
  split
  · simp_all
  · split
    · simp_all
    · split <;> simp_all

end Config

namespace Compiler

variable {config : Config} {source origin : String} {a : Arena}

/-- What a new compiler makes of a source. -/
def answer (config : Config) (source origin : String) : Except Failure String := do
  let c ← Compiler.new config
  (c.rewriteSource source origin).1

theorem exists_new_of_addCatalogue {n : Nat} {e : Engine} (hvalid : config.validate = .ok ())
    (hbuiltin : config.builtinRules = true)
    (h : (Engine.new config.captureSigil config).addCatalogue = (.ok n, e)) :
    ∃ c, Compiler.new config = .ok c ∧ c.Plain ∧ c.engine = e := by
  refine ⟨⟨e, Pipeline.empty.installRewrite.2, Pipeline.empty.installRewrite.1⟩, ?_, rfl, rfl⟩
  simp only [Compiler.new, hvalid, hbuiltin, h]
  rfl

/-- A new compiler with the rules of the catalogue, some property of which is known. -/
structure Fresh (c : Compiler) (config : Config) (P : List (Pattern × Template) → Prop) : Prop where
  created : Compiler.new config = .ok c
  plain : c.Plain
  settings : c.engine.config = config
  reader : c.engine.readerSigil = config.captureSigil
  sides : P c.engine.rules.sides

/-- A new compiler has all rules of the catalogue, if they compile. -/
theorem exists_fresh {P : List (Pattern × Template) → Prop} (hvalid : config.validate = .ok ())
    (hbuiltin : config.builtinRules = true)
    (hrules : ∀ spec ∈ Catalogue.specs, ∃ sides,
      (SnippetReader.ofSigil config.captureSigil).rule spec.source spec.replacement = .ok sides)
    (hsides : P ((Engine.new config.captureSigil config).addRules Catalogue.specs).2.rules.sides) :
    ∃ c : Compiler, c.Fresh config P := by
  obtain ⟨c, hnew, hplain, hengine⟩ :=
    exists_new_of_addCatalogue hvalid hbuiltin (Engine.addCatalogue_of_compiles hrules)
  refine ⟨c, hnew, hplain, ?_, ?_, hengine ▸ hsides⟩
  · rw [hengine, Engine.config_addRules, Engine.new]
  · rw [hengine, Engine.readerSigil_addRules]
    rfl

/-- With the default sigil these are the rules that the catalogue means. -/
theorem exists_fresh_catalogue (hvalid : config.validate = .ok ())
    (hbuiltin : config.builtinRules = true) (hsigil : config.captureSigil = defaultSigil) :
    ∃ c : Compiler, c.Fresh config (· = Engine.catalogueSides) := by
  refine exists_fresh hvalid hbuiltin ?_ ?_
  · intro spec hspec
    rw [hsigil]
    obtain ⟨sides, hrule, -⟩ := Engine.catalogue_compiles spec hspec
    exact ⟨sides, hrule⟩
  · have hcatalogue := (Engine.OfCatalogue.new config hsigil).sides
    rw [Engine.addCatalogue_eq] at hcatalogue
    rw [hsigil]
    exact hcatalogue

/-- With another one all of them are foreign. -/
theorem exists_fresh_foreign (hvalid : config.validate = .ok ())
    (hbuiltin : config.builtinRules = true) (hsigil : config.captureSigil ≠ defaultSigil) :
    ∃ c : Compiler, c.Fresh config fun sides =>
      ∀ side ∈ sides, side.1.Foreign config.captureSigil := by
  have hforeign := Engine.catalogue_foreign (Config.validate_eq_ok.mp hvalid).1 hsigil
  refine exists_fresh hvalid hbuiltin ?_ ?_
  · intro spec hspec
    obtain ⟨p, u, hrule, -⟩ := hforeign spec hspec
    exact ⟨(p, u), hrule⟩
  · refine Engine.forall_sides_addRules (P := fun p _ => p.Foreign config.captureSigil)
      (fun side hside => nomatch hside) ?_
    intro spec hspec p u hrule
    obtain ⟨p', u', hrule', hp⟩ := hforeign spec hspec
    cases hrule.symm.trans hrule'
    exact hp

namespace Fresh

variable {c : Compiler} {P : List (Pattern × Template) → Prop}

theorem answer_eq (h : c.Fresh config P) (source origin : String) :
    answer config source origin = (c.rewriteSource source origin).1 := by
  rw [answer, h.created, ok_bind]

/-- A source without the sigil is read as with the default one. -/
theorem parse_eq (h : c.Fresh config P) (hvalid : config.validate = .ok ())
    (hsource : config.captureSigil ∉ source.toList) :
    c.parse source origin = parseUnit defaultSigil source origin := by
  have hmark : config.captureSigil ≠ '?' := by
    intro heq
    have hsound := (Config.validate_eq_ok.mp hvalid).1
    rw [heq] at hsound
    exact absurd hsound (by decide +kernel)
  rw [parse, h.reader, parseUnit_eq, parseUnit_eq, readProgram_eq_default hmark hsource]

theorem answer_of_parse_error (h : c.Fresh config P) {error : ParseError}
    (herror : c.parse source origin = .error error) :
    answer config source origin = .error (.unit (.parse error)) := by
  rw [h.answer_eq]
  unfold rewriteSource compileUnit
  simp only [herror]

/-- The answer is the text of the unit that the rewriting gives. -/
theorem answer_of_process (h : c.Fresh config P) (hparse : c.parse source origin = .ok a)
    {s : Summary} (hok : (c.engine.process a).result = .ok s) {text : String}
    (htext : (c.engine.process a).arena.source = .ok text) :
    answer config source origin = .ok text := by
  rw [h.answer_eq]
  unfold rewriteSource
  rw [compileUnit_of_parse h.plain hparse, hok]
  simp only [Except.map, Except.mapError, htext]

/-- Foreign rules leave a unit without the default sigil as it is. -/
theorem answer_of_foreign
    (h : c.Fresh config fun sides => ∀ side ∈ sides, side.1.Foreign config.captureSigil)
    (hvalid : config.validate = .ok ())
    (hsource : ∀ ch ∈ source.toList, ch ≠ defaultSigil ∧ ch ≠ config.captureSigil)
    (hparse : parseUnit defaultSigil source origin = .ok a)
    (hsteps : 2 * a.liveCount ≤ defaultSteps) :
    ∃ text, a.source = .ok text ∧ answer config source origin = .ok text := by
  obtain ⟨root, t, hread, hshape, htree⟩ := Arena.exists_readProgram hparse
  have hlist : t.label.isStmtList = true := by
    cases readProgram_isPart hread
    rfl
  have htext := Arena.source_eq_programText hshape.fits hshape.root_eq htree hlist
  have hclean : t.Clean (· == defaultSigil) :=
    clean_of_readProgram rfl (fun ch hch => beq_false_of_ne (hsource ch hch).1) hread
  have hdepth : c.engine.config.maxDepth ≠ 0 := by
    rw [h.settings]
    exact (Config.validate_eq_ok.mp hvalid).2.2
  obtain ⟨s, hprocess⟩ := Engine.process_of_clean hdepth h.sides hshape htree hclean hsteps
  have hmine : c.parse source origin = .ok a :=
    (h.parse_eq hvalid fun hmem => (hsource _ hmem).2 rfl).trans hparse
  refine ⟨_, htext, h.answer_of_process hmine (s := s) (by rw [hprocess]) ?_⟩
  rw [hprocess]
  exact htext

/-- The rules of the catalogue drop the constant operand. -/
theorem process_guardedCall {d : Compiler} (h : d.Fresh config (· = Engine.catalogueSides))
    (hconfig : config = { builtinRules := true }) :
    (d.engine.process (.ofTree "unit" Engine.guardedCall)).result = .ok ⟨1, 12⟩ ∧
      (d.engine.process (.ofTree "unit" Engine.guardedCall)).arena.source =
        .ok "if (ready()) go();" := by
  obtain ⟨root, hshape, htree⟩ :=
    Arena.ofTree_treeShaped "unit" (t := Engine.guardedCall) (by decide)
  obtain ⟨-, hintact⟩ := Engine.exists_owns_processWithin (e := d.engine) hshape defaultSteps
  obtain ⟨l, rfl, ha⟩ := hshape.exists_owns
  have hl : l.tree = Engine.guardedCall :=
    Except.ok.inj (ha.holds_all.tree_eq.symm.trans htree)
  have hrules : d.engine.rules.size ≠ 0 := by
    rw [← RuleStore.length_sides, h.sides, Engine.catalogue_settles.1]
    decide
  have hrewriter : d.engine.rewriter (Arena.ofTree "unit" Engine.guardedCall).origin =
      ⟨{ builtinRules := true }, "unit", Engine.catalogueSides⟩ := by
    rw [Engine.rewriter, h.settings, h.sides, hconfig]
    rfl
  obtain ⟨t, ht, hlist, htext⟩ := Engine.rewriteUnit_guardedCall
  have hunit : (d.engine.rewriter (Arena.ofTree "unit" Engine.guardedCall).origin).rewriteUnit 9
      l.tree = .ok (t, ⟨1, 12⟩) := by
    rw [hrewriter, hl, ht]
  obtain ⟨hresult, hleft⟩ := Engine.matches_of_rewriteUnit_ok ha hshape.root_eq hrules hunit
    (by decide : 2 * 12 + 1 ≤ defaultSteps)
  obtain ⟨hroot, htree'⟩ := hleft t _ rfl
  obtain ⟨m, -, howns, -⟩ := hintact (by simp [hresult, Except.map])
  refine ⟨hresult, ?_⟩
  rw [← htext]
  exact Arena.source_eq_programText howns.fits hroot htree' hlist

end Fresh

/-- With another sigil than the default one the catalogue rewrites nothing. A source that has neither
of the two is read as with the default sigil, failures included; but what was read is handed on as it
is, so the answer is that of the compiler with the default sigil only if this one changes nothing. -/
theorem answer_foreignSigil (hvalid : config.validate = .ok ())
    (hbuiltin : config.builtinRules = true) (hsigil : config.captureSigil ≠ defaultSigil)
    (hsource : ∀ ch ∈ source.toList, ch ≠ defaultSigil ∧ ch ≠ config.captureSigil)
    (origin : String) :
    (∀ error, parseUnit defaultSigil source origin = .error error →
      answer config source origin = .error (.unit (.parse error)) ∧
      answer { config with captureSigil := defaultSigil } source origin =
        .error (.unit (.parse error))) ∧
    ∀ a, parseUnit defaultSigil source origin = .ok a → 2 * a.liveCount ≤ defaultSteps →
      ∃ text, a.source = .ok text ∧ answer config source origin = .ok text ∧
        (answer config source origin =
            answer { config with captureSigil := defaultSigil } source origin ↔
          answer { config with captureSigil := defaultSigil } source origin = .ok text) := by
  obtain ⟨c, hc⟩ := exists_fresh_foreign hvalid hbuiltin hsigil
  constructor
  · intro error herror
    obtain ⟨-, hrewrites, hdepth⟩ := Config.validate_eq_ok.mp hvalid
    have hdefault : Config.validate { config with captureSigil := defaultSigil } = .ok () :=
      Config.validate_eq_ok.mpr
        ⟨(by decide +kernel : isValidSigil defaultSigil = true), hrewrites, hdepth⟩
    obtain ⟨d, hd⟩ := exists_fresh_catalogue hdefault hbuiltin rfl
    have hc' : c.parse source origin = .error error := by
      rw [hc.parse_eq hvalid fun hmem => (hsource _ hmem).2 rfl, herror]
    have hd' : d.parse source origin = .error error := by
      rw [hd.parse_eq hdefault fun hmem => (hsource _ hmem).1 rfl, herror]
    exact ⟨hc.answer_of_parse_error hc', hd.answer_of_parse_error hd'⟩
  · intro a ha hsteps
    obtain ⟨text, htext, hanswer⟩ := hc.answer_of_foreign hvalid hsource ha hsteps
    refine ⟨text, htext, hanswer, ?_⟩
    rw [hanswer]
    exact eq_comm

def atSigil : Config := { captureSigil := '@', builtinRules := true }

theorem parseUnit_guardedCall :
    parseUnit defaultSigil "if (true && ready()) go();" "unit" =
      .ok (.ofTree "unit" Engine.guardedCall) := by
  have hread : readProgram defaultSigil "if (true && ready()) go();".toList =
      .ok Engine.guardedCall := readProgram_of_toOption (by decide +kernel)
  rw [parseUnit_eq, hread]

theorem guardedCall_chars : ∀ ch ∈ "if (true && ready()) go();".toList,
    ch ≠ defaultSigil ∧ ch ≠ atSigil.captureSigil := by
  have hcheck : ("if (true && ready()) go();".toList.all fun ch =>
      ch != defaultSigil && ch != atSigil.captureSigil) = true := by
    decide +kernel
  intro ch hch
  simpa using List.all_eq_true.mp hcheck ch hch

theorem answer_atSigil :
    ∃ a text, parseUnit defaultSigil "if (true && ready()) go();" "unit" = .ok a ∧
      a.source = .ok text ∧ answer atSigil "if (true && ready()) go();" "unit" = .ok text := by
  obtain ⟨-, h⟩ := answer_foreignSigil (Config.validate_eq_ok.mpr (by decide +kernel)) rfl
    (by decide) guardedCall_chars "unit"
  obtain ⟨text, htext, hanswer, -⟩ := h _ parseUnit_guardedCall (by decide +kernel)
  exact ⟨_, text, parseUnit_guardedCall, htext, hanswer⟩

/-- The catalogue drops the constant operand with the default sigil, but not with the other one. -/
theorem guardedCall_depends_on_sigil :
    atSigil.validate = .ok () ∧ atSigil.builtinRules = true ∧
      (∀ ch ∈ "if (true && ready()) go();".toList,
        ch ≠ defaultSigil ∧ ch ≠ atSigil.captureSigil) ∧
      answer atSigil "if (true && ready()) go();" "unit" = .ok "if (true && ready()) go();" ∧
      answer { atSigil with captureSigil := defaultSigil } "if (true && ready()) go();" "unit" =
        .ok "if (ready()) go();" := by
  have hvalid : atSigil.validate = .ok () := Config.validate_eq_ok.mpr (by decide +kernel)
  have hdefault : Config.validate { atSigil with captureSigil := defaultSigil } = .ok () :=
    Config.validate_eq_ok.mpr (by decide +kernel)
  refine ⟨hvalid, rfl, guardedCall_chars, ?_, ?_⟩
  · obtain ⟨c, hc⟩ := exists_fresh_foreign hvalid rfl (by decide)
    obtain ⟨text, htext, hanswer⟩ :=
      hc.answer_of_foreign hvalid guardedCall_chars parseUnit_guardedCall (by decide +kernel)
    have hunit : (Arena.ofTree "unit" Engine.guardedCall).source.toOption =
        some "if (true && ready()) go();" := by
      decide +kernel
    rw [htext] at hunit
    cases hunit
    exact hanswer
  · obtain ⟨d, hd⟩ := exists_fresh_catalogue hdefault rfl rfl
    have hparse : d.parse "if (true && ready()) go();" "unit" =
        .ok (.ofTree "unit" Engine.guardedCall) := by
      rw [hd.parse_eq hdefault fun hmem => (guardedCall_chars _ hmem).1 rfl,
        parseUnit_guardedCall]
    obtain ⟨hok, htext⟩ := hd.process_guardedCall rfl
    exact hd.answer_of_process hparse hok htext

end Compiler

end SnippetRewrite
