import SnippetRewrite.Proofs.Console.Collecting

/-!
What a collector hands out, and what it keeps. Its state is stored in five fields, and one of them
stays behind: the last quotation mark is not forgotten when its string ends, nor when the collector
is reset. It is only read while a string is open, and then it is the one that opened the string, so
the fields have a view in which it does not occur, and a collector is run on that view. In between,
the collector is in the state of a fresh one that has been fed the lines still pending. This is so
because a blank line never stays pending alone.
-/

namespace SnippetRewrite

namespace Collector

inductive Call where
  | line (text : String)
  | reset
deriving DecidableEq, Repr

section Runs

variable {σ τ : Type} {call : σ → Call → Option String × σ} {call' : τ → Call → Option String × τ}

/-- The texts handed out, one answer for each call. -/
def answers (call : σ → Call → Option String × σ) : σ → List Call → List (Option String)
  | _, [] => []
  | s, c :: calls => (call s c).1 :: answers call (call s c).2 calls

def after (call : σ → Call → Option String × σ) (s : σ) (calls : List Call) : σ :=
  calls.foldl (fun s c => (call s c).2) s

/-- A state and its view that answer alike, call by call, answer any calls alike. -/
theorem answers_eq_of_view {view : σ → τ}
    (h : ∀ s c, (call s c).1 = (call' (view s) c).1 ∧ view (call s c).2 = (call' (view s) c).2)
    (s : σ) (calls : List Call) : answers call s calls = answers call' (view s) calls := by
  induction calls generalizing s with
  | nil => rfl
  | cons c calls ih =>
      obtain ⟨hanswer, hview⟩ := h s c
      rw [answers, answers, hanswer, ih, hview]

theorem view_after {view : σ → τ} (h : ∀ s c, view (call s c).2 = (call' (view s) c).2)
    (s : σ) (calls : List Call) : view (after call s calls) = after call' (view s) calls := by
  induction calls generalizing s with
  | nil => rfl
  | cons c calls ih => exact (ih _).trans (by rw [h]; rfl)

end Runs

/-- A line waits for more if nothing is handed out. -/
def pendingAfter (lines : List String) : Call × Option String → List String
  | (.line line, none) => lines ++ [line]
  | _ => []

/-- The lines since text was last handed out or the collector was reset. -/
def pending (calls : List Call) (answers : List (Option String)) : List String :=
  (calls.zip answers).foldl pendingAfter []

/-- Answers a call; a reset throws away what has been collected. -/
def call (parses : String → Bool) (c : Collector) : Call → Option String × Collector
  | .line line => c.feed parses line
  | .reset => (none, empty)

/-! ### Pending lines -/

variable {c : Collector} {lines : List String}

/-- The collector is where a fresh one is that has been fed lines which call for more. -/
structure Awaits (c : Collector) (lines : List String) : Prop where
  state_eq : c = lines.foldl Collector.append empty
  text_eq : c.text = "\n".intercalate lines
  /-- Otherwise the next line would not be set off from the blank one before it. -/
  nonblank : c.text = "" → lines = []

theorem awaits_empty : empty.Awaits [] := ⟨rfl, rfl, fun _ => rfl⟩

theorem append_text (c : Collector) (line : String) :
    (c.append line).text = if c.text = "" then line else c.text ++ "\n" ++ line := by
  rw [append, text_foldl_scanChar]

theorem Awaits.append_text_eq (h : c.Awaits lines) (line : String) :
    (c.append line).text = "\n".intercalate (lines ++ [line]) := by
  rw [append_text]
  by_cases hblank : c.text = ""
  · rw [if_pos hblank, h.nonblank hblank, List.nil_append, String.intercalate_singleton]
  · have hlines : lines ≠ [] := by
      rintro rfl
      exact hblank h.text_eq
    rw [if_neg hblank, h.text_eq, String.intercalate_append_of_ne_nil hlines (by simp),
      String.intercalate_singleton]

/-- A blank line is a complete text, whether it can be read or not. -/
theorem isComplete_blank (parses : String → Bool) : (empty.append "").isComplete parses = true := by
  have hdangling : isDangling "" = false := by decide
  have hblank : empty.append "" = empty := rfl
  rw [hblank]
  simp [isComplete, empty, hdangling]

theorem Awaits.append (parses : String → Bool) (h : c.Awaits lines) {line : String}
    (hmore : (c.append line).isComplete parses = false) :
    (c.append line).Awaits (lines ++ [line]) := by
  refine ⟨by rw [List.foldl_append, ← h.state_eq]; rfl, h.append_text_eq line, fun hblank => ?_⟩
  rw [append_text] at hblank
  by_cases htext : c.text = ""
  · rw [if_pos htext] at hblank
    have hc : c = empty := by rw [h.state_eq, h.nonblank htext, List.foldl_nil]
    rw [hc, hblank, isComplete_blank] at hmore
    cases hmore
  · rw [if_neg htext] at hblank
    simp at hblank

/-- What is pending before a call and its answer tell what is pending behind it. -/
theorem Awaits.call (parses : String → Bool) (h : c.Awaits lines) (call : Call) :
    (c.call parses call).2.Awaits (pendingAfter lines (call, (c.call parses call).1)) := by
  cases call with
  | reset => exact awaits_empty
  | line line =>
      cases hcomplete : (c.append line).isComplete parses with
      | true =>
          simp only [Collector.call, feed, hcomplete]
          exact awaits_empty
      | false =>
          simp only [Collector.call, feed, hcomplete]
          exact h.append parses hcomplete

theorem Awaits.after (parses : String → Bool) (h : c.Awaits lines) (calls : List Call) :
    (after (Collector.call parses) c calls).Awaits
      ((calls.zip (answers (Collector.call parses) c calls)).foldl pendingAfter lines) := by
  induction calls generalizing c lines with
  | nil => exact h
  | cons call calls ih => exact ih (h.call parses call)

theorem text_eq_of_feed {parses : String → Bool} (h : c.Awaits lines) {line text : String}
    (hfeed : (c.feed parses line).1 = some text) : text = "\n".intercalate (lines ++ [line]) := by
  rw [← h.append_text_eq]
  simp only [feed] at hfeed
  split at hfeed
  · exact (Option.some.inj hfeed).symm
  · cases hfeed

/-! ### The fields -/

/-- A collector as it is stored. -/
structure Fields where
  text : String
  nesting : Int
  inString : Bool
  /-- The quotation mark that opened the last string, whether that is still open or not. -/
  delimiter : Char
  escaping : Bool
deriving DecidableEq, Repr

namespace Fields

def new : Fields := ⟨"", 0, false, '"', false⟩

def scanChar (s : Fields) (ch : Char) : Fields :=
  if s.inString then
    if s.escaping then { s with escaping := false }
    else if ch = '\\' then { s with escaping := true }
    else if ch = s.delimiter then { s with inString := false }
    else s
  else if ch = '"' ∨ ch = '\'' then { s with inString := true, delimiter := ch, escaping := false }
  else if ch = '\x7b' ∨ ch = '(' ∨ ch = '[' then { s with nesting := s.nesting + 1 }
  else if ch = '\x7d' ∨ ch = ')' ∨ ch = ']' then { s with nesting := s.nesting - 1 }
  else s

def append (s : Fields) (line : String) : Fields :=
  let text := if s.text = "" then line else s.text ++ "\n" ++ line
  line.toList.foldl scanChar { s with text }

def isComplete (parses : String → Bool) (s : Fields) : Bool :=
  !s.inString && s.nesting ≤ 0 && (parses s.text || !isDangling s.text)

/-- Forgets everything but the last quotation mark. -/
def reset (s : Fields) : Fields :=
  { s with text := "", nesting := 0, inString := false, escaping := false }

def feed (parses : String → Bool) (s : Fields) (line : String) : Option String × Fields :=
  let s := s.append line
  if s.isComplete parses then (some s.text, s.reset) else (none, s)

def call (parses : String → Bool) (s : Fields) : Call → Option String × Fields
  | .line line => s.feed parses line
  | .reset => (none, s.reset)

def view (s : Fields) : Collector :=
  ⟨s.text, s.nesting, if s.inString then some s.delimiter else none, s.escaping⟩

variable (parses : String → Bool) (s : Fields)

@[simp] theorem view_new : new.view = empty := rfl

theorem view_scanChar (ch : Char) : (s.scanChar ch).view = s.view.scanChar ch := by
  obtain ⟨text, nesting, inString, delimiter, escaping⟩ := s
  cases inString with
  | true => grind [scanChar, view, Collector.scanChar]
  | false => grind [scanChar, view, Collector.scanChar]

theorem view_foldl_scanChar (line : List Char) :
    (line.foldl scanChar s).view = line.foldl Collector.scanChar s.view := by
  induction line generalizing s with
  | nil => rfl
  | cons ch line ih => rw [List.foldl_cons, List.foldl_cons, ih, view_scanChar]

theorem view_append (line : String) : (s.append line).view = s.view.append line :=
  view_foldl_scanChar _ _

theorem isComplete_view : s.view.isComplete parses = s.isComplete parses := by
  obtain ⟨text, nesting, inString, delimiter, escaping⟩ := s
  cases inString <;> rfl

/-- The fields answer as their view does and go on to fields with the next view. -/
theorem call_view (c : Call) : (s.call parses c).1 = (s.view.call parses c).1 ∧
    (s.call parses c).2.view = (s.view.call parses c).2 := by
  cases c with
  | reset => exact ⟨rfl, rfl⟩
  | line line =>
      simp only [call, feed, Collector.call, Collector.feed, ← view_append, isComplete_view]
      split <;> exact ⟨rfl, rfl⟩

theorem answers_view (calls : List Call) :
    answers (call parses) s calls = answers (Collector.call parses) s.view calls :=
  answers_eq_of_view (call_view parses) s calls

end Fields

/-- Nothing gets lost or leaks between the texts that a collector hands out. Whatever it has been
asked before, a text consists of the lines since the last text or reset, in order; and behind a text
or a reset the collector answers as a new one does. Here it is taken with its fields, of which one is
never cleared; from any values of the fields, the answers are those from what is read of them. -/
theorem handover (parses : String → Bool) (calls : List Call) :
    let s := after (Fields.call parses) .new calls
    (∀ line text, (s.feed parses line).1 = some text → text =
      "\n".intercalate (pending calls (answers (Fields.call parses) .new calls) ++ [line])) ∧
    (∀ call, call = .reset ∨ (s.call parses call).1.isSome → ∀ more,
      answers (Fields.call parses) (s.call parses call).2 more =
        answers (Fields.call parses) .new more) ∧
    ∀ (s : Fields) more, answers (Fields.call parses) s more =
      answers (Collector.call parses) s.view more := by
  refine ⟨fun line text hfeed => ?_, fun call hcall more => ?_, Fields.answers_view parses⟩
  · have hawaits := awaits_empty.after parses calls
    rw [← Fields.view_new, ← view_after fun s c => (Fields.call_view parses s c).2,
      ← Fields.answers_view] at hawaits
    have hanswer := (Fields.call_view parses (after (Fields.call parses) .new calls) (.line line)).1
    exact text_eq_of_feed hawaits (hanswer.symm.trans hfeed)
  · have hview : ((after (Fields.call parses) .new calls).call parses call).2.view = empty := by
      cases call with
      | reset => rfl
      | line line =>
          simp only [Fields.call, Fields.feed, reduceCtorEq, false_or] at hcall ⊢
          split
          · rfl
          · simp_all
    rw [Fields.answers_view, Fields.answers_view, hview, Fields.view_new]

/-- A reset within a string leaves the quotation mark behind; the next text is that of two lines. -/
theorem handover_afterReset :
    let calls := [.line "f('it", .reset, .line "g("]
    let s := after (Fields.call fun _ => true) .new calls
    s.delimiter = '\'' ∧ pending calls (answers (Fields.call fun _ => true) .new calls) = ["g("] ∧
      (s.feed (fun _ => true) ");").1 = some "g(\n);" ∧
      "g(\n);" = "\n".intercalate ["g(", ");"] ∧
      answers (Fields.call fun _ => true) (s.feed (fun _ => true) ");").2 [.line "\"it's\""] =
        [some "\"it's\""] := by
  obtain ⟨htext, hfresh, -⟩ := handover (fun _ => true) [.line "f('it", .reset, .line "g("]
  have hfeed : ((after (Fields.call fun _ => true) .new
      [.line "f('it", .reset, .line "g("]).feed (fun _ => true) ");").1 = some "g(\n);" := by decide
  refine ⟨by decide, by decide, hfeed, htext ");" _ hfeed, ?_⟩
  refine (hfresh (.line ");") (.inr (by decide)) _).trans (by decide)

end Collector

end SnippetRewrite
