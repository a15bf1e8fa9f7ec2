import SnippetRewrite.Console.Collector
import SnippetRewrite.Console.State
import SnippetRewrite.Proofs.Parse.Accepted
import SnippetRewrite.Proofs.Parse.Storing

/-!
Collected lines and the reader. The collector follows brackets and strings character by character, on
its own, and asks the reader only when nothing is open. It does not know of comments, and it never
sees the line feeds between lines. On a text where neither shows, it is in step with the places of
the characters, line after line; so a text that can be read is handed out, unless brackets are left
open in its comments.
-/

namespace SnippetRewrite

/-- Whether the console can read a text as a unit. -/
def accepts (sigil : Char) (text : String) : Bool :=
  (parseUnit sigil text consoleOrigin).isOk

theorem accepts_eq (sigil : Char) (text : String) :
    accepts sigil text = (readProgram sigil text.toList).isOk := by
  rw [accepts, parseUnit_eq]
  cases readProgram sigil text.toList <;> rfl

theorem exists_readProgram_of_accepts {sigil : Char} {text : String}
    (h : accepts sigil text = true) : ∃ t, readProgram sigil text.toList = .ok t := by
  rw [accepts_eq] at h
  cases hread : readProgram sigil text.toList with
  | ok t => exact ⟨t, rfl⟩
  | error failure =>
      rw [hread] at h
      cases h

namespace Place

variable {p : Place} {c quote : Char} {text : List Char}

/-- Whether a character leads one astray who does not know of comments, and to whom the ends of lines
are not shown. -/
def misleads : Place → Char → Bool
  | lineComment, c | blockComment, c | star, c => c = '"' || c = '\''
  | escape _, c => c = '\n'
  | _, _ => false

def isEscape : Place → Bool
  | escape _ => true
  | _ => false

/-- No quotation mark is in a comment, and no string goes on behind a backslash at the end of a
line. -/
def isHarmless (text : List Char) : Bool :=
  (code.placed text).all fun (p, c) => !p.misleads c

theorem isHarmless_append {more : List Char} (h : isHarmless (text ++ more) = true) :
    isHarmless text = true := by
  rw [isHarmless, placed_append, List.all_append, Bool.and_eq_true] at h
  exact h.1

theorem misleads_of_isHarmless (h : isHarmless (text ++ [c]) = true) :
    (code.after text).misleads c = false := by
  rw [isHarmless, placed_append, List.all_append, Bool.and_eq_true] at h
  simpa [placed] using h.2

def IsQuote (c : Char) : Prop := c = '"' ∨ c = '\''

theorem isQuote_next (h : ∀ q ∈ p.quote?, IsQuote q) (c : Char) : ∀ q ∈ (p.next c).quote?, IsQuote q := by
  have hbehind : ∀ q ∈ (behind c).quote?, IsQuote q := by
    unfold behind
    grind [quote?, IsQuote]
  cases p with
  | code => exact hbehind
  | slash => grind [next, quote?]
  | lineComment | blockComment | star => grind [next, quote?]
  | string quote | escape quote => grind [next, quote?]

theorem isQuote_after (h : ∀ q ∈ p.quote?, IsQuote q) (text : List Char) :
    ∀ q ∈ (p.after text).quote?, IsQuote q := by
  induction text generalizing p with
  | nil => exact h
  | cons c text ih => exact ih (isQuote_next h c)

end Place

namespace Collector

open Place

variable {c : Collector} {p : Place} {ch : Char} {text line : List Char}

/-! ### In step with the places -/

/-- The collector knows of the string around a place. -/
structure Mirrors (c : Collector) (p : Place) : Prop where
  quote_eq : c.quote = p.quote?
  escaping_eq : c.quote.isSome → c.escaping = p.isEscape

/-- Outside strings, only quotation marks change what is open. -/
theorem scanChar_outside (h : c.quote = none) (ch : Char) :
    (c.scanChar ch).quote = (behind ch).quote? ∧
      ((c.scanChar ch).quote.isSome → (c.scanChar ch).escaping = false) ∧
      (c.scanChar ch).nesting = c.nesting + bracketWeight ch := by
  simp only [scanChar, h]
  by_cases hquote : ch = '"' ∨ ch = '\''
  · rw [if_pos hquote]
    rcases hquote with rfl | rfl <;> exact ⟨rfl, fun _ => rfl, (Int.add_zero _).symm⟩
  rw [if_neg hquote]
  have hbehind : (behind ch).quote? = none := by
    unfold behind
    rw [if_neg hquote]
    repeat' split
    all_goals rfl
  rw [hbehind, bracketWeight]
  by_cases hopen : ch = '\x7b' ∨ ch = '(' ∨ ch = '['
  · simp [hopen]
  by_cases hclose : ch = '\x7d' ∨ ch = ')' ∨ ch = ']'
  · simp [hopen, hclose]
    rfl
  · simp [hopen, hclose, h]

/-- A character that does not mislead is followed; brackets in comments count like others. -/
theorem Mirrors.scanChar (h : c.Mirrors p) (hquote : ∀ q ∈ p.quote?, IsQuote q)
    (hch : p.misleads ch = false) : (c.scanChar ch).Mirrors (p.next ch) ∧
      (c.scanChar ch).nesting =
        c.nesting + if p.isCode || p.isComment then bracketWeight ch else 0 := by
  obtain ⟨hq, he⟩ := h
  have houtside (hnone : p.quote? = none) (hnext : (p.next ch).quote? = (behind ch).quote?)
      (hescape : (p.next ch).isEscape = false) : (c.scanChar ch).Mirrors (p.next ch) ∧
        (c.scanChar ch).nesting = c.nesting + bracketWeight ch := by
    obtain ⟨hquote, hescaping, hnesting⟩ := scanChar_outside (hq.trans hnone) ch
    exact ⟨⟨hquote.trans hnext.symm, fun h => (hescaping h).trans hescape.symm⟩, hnesting⟩
  have hbehind : (behind ch).isEscape = false := by
    unfold behind
    repeat' split
    all_goals rfl
  -- in comments there are no quotation marks
  have hplain (h : (ch = '"' || ch = '\'') = false) : (behind ch).quote? = none := by
    unfold behind
    repeat' split
    all_goals simp_all [quote?]
  cases p with
  | code => exact houtside rfl rfl hbehind
  | slash =>
      by_cases hslash : ch = '/'
      · subst hslash
        exact houtside rfl rfl rfl
      by_cases hstar : ch = '*'
      · subst hstar
        exact houtside rfl rfl rfl
      have hnext : slash.next ch = behind ch := by simp [Place.next, hslash, hstar]
      exact houtside rfl (by rw [hnext]) (by rw [hnext, hbehind])
  | lineComment | blockComment | star =>
      refine houtside rfl ?_ ?_
      · rw [hplain hch, Place.next]
        repeat' split
        all_goals rfl
      · rw [Place.next]
        repeat' split
        all_goals rfl
  | string quote =>
      have hquote : quote ≠ '\\' := by rcases hquote quote rfl with rfl | rfl <;> decide
      have hescaping : c.escaping = false := he (by rw [hq]; rfl)
      simp only [Collector.scanChar, hq, quote?, hescaping, Place.next]
      by_cases hclose : ch = quote
      · subst hclose
        exact ⟨⟨by simp [hquote, quote?], by simp [hquote]⟩, by simp [hquote, isCode, isComment]⟩
      by_cases hescape : ch = '\\'
      · subst hescape
        exact ⟨⟨by simp [hclose, quote?], by simp [hclose, isEscape]⟩, by simp [isCode, isComment]⟩
      · exact ⟨⟨by simp [hclose, hescape, quote?, hq], by simp [hclose, hescape, isEscape, hescaping]⟩,
          by simp [hclose, hescape, isCode, isComment]⟩
  | escape quote =>
      have hescaping : c.escaping = true := he (by rw [hq]; rfl)
      simp only [Collector.scanChar, hq, quote?, hescaping, if_true]
      exact ⟨⟨rfl, fun _ => rfl⟩, (Int.add_zero _).symm⟩

/-- At the end of a line outside escapes nothing changes, so the collector does not miss it. -/
theorem Mirrors.scanChar_lineFeed (h : c.Mirrors p) (hquote : ∀ q ∈ p.quote?, IsQuote q)
    (hp : p.misleads '\n' = false) : c.scanChar '\n' = c := by
  obtain ⟨hq, he⟩ := h
  unfold Collector.scanChar
  cases p with
  | code | slash | lineComment | blockComment | star => rw [hq]; rfl
  | string quote =>
      have hquote : quote ≠ '\n' := by rcases hquote quote rfl with rfl | rfl <;> decide
      have hescaping : c.escaping = false := he (by rw [hq]; rfl)
      simp [hq, quote?, hescaping, hquote.symm]
  | escape quote => cases hp

/-- The collector knows what is open behind a text. -/
structure Follows (c : Collector) (text : List Char) : Prop where
  mirrors : c.Mirrors (code.after text)
  nesting_eq : c.nesting = depthAt isCode .code text + depthAt isComment .code text

theorem follows_empty : empty.Follows [] :=
  ⟨⟨rfl, fun h => absurd h (by decide)⟩, rfl⟩

theorem isQuote_afterCode (text : List Char) : ∀ q ∈ (code.after text).quote?, IsQuote q :=
  isQuote_after (fun _ h => absurd h (by simp [quote?])) text

theorem Follows.scanChar (h : c.Follows text) (hch : isHarmless (text ++ [ch]) = true) :
    (c.scanChar ch).Follows (text ++ [ch]) := by
  obtain ⟨hmirrors, hnesting⟩ :=
    h.mirrors.scanChar (isQuote_afterCode text) (misleads_of_isHarmless hch)
  refine ⟨by rwa [after_append], ?_⟩
  have hdisjoint : ¬((code.after text).isCode = true ∧ (code.after text).isComment = true) := by
    cases code.after text <;> simp [isCode, isComment]
  rw [hnesting, h.nesting_eq, depthAt_append, depthAt_append]
  cases hcode : (code.after text).isCode <;> cases hcomment : (code.after text).isComment <;>
    simp_all <;> omega

theorem Follows.foldl_scanChar (h : c.Follows text) (hline : isHarmless (text ++ line) = true) :
    (line.foldl Collector.scanChar c).Follows (text ++ line) := by
  induction line generalizing c text with
  | nil => simpa using h
  | cons ch line ih =>
      rw [List.append_cons] at hline ⊢
      exact ih (h.scanChar (isHarmless_append hline)) hline

theorem Follows.lineFeed (h : c.Follows text) (hfeed : isHarmless (text ++ ['\n']) = true) :
    c.Follows (text ++ ['\n']) := by
  have hsame := h.mirrors.scanChar_lineFeed (isQuote_afterCode text) (misleads_of_isHarmless hfeed)
  exact hsame ▸ h.scanChar hfeed

/-! ### Line after line -/

@[simp] theorem text_foldl_scanChar (c : Collector) (line : List Char) :
    (line.foldl Collector.scanChar c).text = c.text := by
  have hstep (c : Collector) (ch : Char) : (c.scanChar ch).text = c.text := by
    unfold Collector.scanChar
    repeat' split
    all_goals rfl
  induction line generalizing c with
  | nil => rfl
  | cons ch line ih => exact (ih _).trans (hstep c ch)

/-- As long as its text is harmless, the collector knows what is open. -/
def InStep (c : Collector) : Prop :=
  isHarmless c.text.toList = true → c.Follows c.text.toList

theorem Follows.withText (h : c.Follows text) (other : String) : Follows { c with text := other } text :=
  ⟨⟨h.mirrors.quote_eq, h.mirrors.escaping_eq⟩, h.nesting_eq⟩

theorem InStep.append (h : c.InStep) (line : String) : (c.append line).InStep := by
  intro hharmless
  unfold Collector.append at hharmless ⊢
  rw [text_foldl_scanChar] at hharmless ⊢
  by_cases hempty : c.text = ""
  · simp only [if_pos hempty] at hharmless ⊢
    have hfollows : c.Follows [] := by
      have hc := h (by rw [hempty]; rfl)
      rwa [hempty] at hc
    exact (hfollows.withText line).foldl_scanChar hharmless
  · simp only [if_neg hempty, String.toList_append] at hharmless ⊢
    have hfeed := isHarmless_append hharmless
    exact (((h (isHarmless_append hfeed)).lineFeed hfeed).withText _).foldl_scanChar hharmless

def afterLines (parses : String → Bool) (lines : List String) : Collector :=
  lines.foldl (fun c line => (c.feed parses line).2) empty

theorem inStep_feed (parses : String → Bool) (h : c.InStep) (line : String) :
    (c.feed parses line).2.InStep := by
  unfold feed
  dsimp only
  split
  · exact fun _ => follows_empty
  · exact h.append line

theorem inStep_afterLines (parses : String → Bool) (lines : List String) :
    (afterLines parses lines).InStep := by
  suffices hfrom : ∀ c : Collector, c.InStep →
      (lines.foldl (fun c line => (c.feed parses line).2) c).InStep from
    hfrom empty fun _ => follows_empty
  induction lines with
  | nil => exact fun c h => h
  | cons line lines ih => exact fun c h => ih _ (inStep_feed parses h line)

/-- Whatever lines have been fed before: if the collected text can be read with a valid sigil, and is
harmless, it is handed out exactly if its comments leave no brackets open. -/
theorem feed_harmless {sigil : Char} (hsigil : isValidSigil sigil = true) (lines : List String)
    (line : String) (haccepts :
      accepts sigil ((afterLines (accepts sigil) lines).append line).text = true)
    (hharmless : isHarmless ((afterLines (accepts sigil) lines).append line).text.toList = true) :
    ((afterLines (accepts sigil) lines).feed (accepts sigil) line).1 =
      if depthAt isComment .code ((afterLines (accepts sigil) lines).append line).text.toList ≤ 0
      then some ((afterLines (accepts sigil) lines).append line).text else none := by
  have hfollows := (inStep_afterLines (accepts sigil) lines).append line hharmless
  obtain ⟨t, hread⟩ := exists_readProgram_of_accepts haccepts
  obtain ⟨hquote, hdepth⟩ := balanced_of_readProgram hsigil hread
  unfold feed
  generalize (afterLines (accepts sigil) lines).append line = c at *
  have hcomplete : c.isComplete (accepts sigil) = decide (depthAt isComment .code c.text.toList ≤ 0) := by
    rw [isComplete, hfollows.mirrors.quote_eq, hquote, hfollows.nesting_eq, hdepth, haccepts,
      Int.zero_add]
    simp
  dsimp only
  rw [hcomplete]
  split <;> simp_all

/-- Comments do no harm as such. -/
theorem feed_commentedClosure : ∃ text : String,
    let lines := ["f(function () \x7b // no more", "  return '\x7d'; /* (yet) */"]
    ((afterLines (accepts defaultSigil) lines).append "\x7d);").text = text ∧
      accepts defaultSigil text = true ∧ isHarmless text.toList = true ∧
        ((afterLines (accepts defaultSigil) lines).feed (accepts defaultSigil) "\x7d);").1 =
          some text := by
  have haccepts : accepts defaultSigil ((afterLines (accepts defaultSigil)
      ["f(function () \x7b // no more", "  return '\x7d'; /* (yet) */"]).append "\x7d);").text = true := by
    rw [accepts_eq]
    decide +kernel
  have hharmless : isHarmless ((afterLines (accepts defaultSigil)
      ["f(function () \x7b // no more", "  return '\x7d'; /* (yet) */"]).append
        "\x7d);").text.toList = true := by
    decide +kernel
  refine ⟨_, rfl, haccepts, hharmless, ?_⟩
  rw [feed_harmless (by decide) _ _ haccepts hharmless]
  exact if_pos (by decide +kernel)

/-- An apostrophe in a comment is taken for the beginning of a string. -/
theorem feed_apostropheInComment : accepts defaultSigil "x; // it's" = true ∧
    (empty.feed (accepts defaultSigil) "x; // it's").1 = none := by
  constructor
  · rw [accepts_eq]
    decide +kernel
  · decide +kernel

end Collector

end SnippetRewrite
