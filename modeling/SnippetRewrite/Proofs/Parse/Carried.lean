import SnippetRewrite.Proofs.Parse.Beginning
import SnippetRewrite.Proofs.Parse.Excerpt

/-!
Readers on a text and on a longer one. What a reader hands back on the text on its own, the reader of
the longer text hands back at the linked cursor, with lines counted from the longer text's first. The
exceptional cases are handed on: behind a comment that is not closed nothing can be read any more, and
a reader that stopped at the end of the text, where in the longer one it might have gone on, is of no
use unless something that must be there has been read behind it. So with each reader goes what it can
do at the end.
-/

namespace SnippetRewrite

/-- What a reader can do at the end of a text. -/
structure AtEnd where
  /-- It may stop there, although in a longer text it might go on. -/
  stops : Bool
  /-- It may be called there, and does not fail. -/
  starts : Bool
deriving DecidableEq

namespace AtEnd

/-- Such a reader ends with a token of its own. -/
def closed : AtEnd := ⟨false, false⟩

/-- Such a reader takes no token and looks for none. -/
def idle : AtEnd := ⟨false, true⟩

/-- Such a reader takes a token and may go on. -/
def extensible : AtEnd := ⟨true, false⟩

/-- Such a reader may take nothing or go on. -/
def optional : AtEnd := ⟨true, true⟩

/-- One reader behind another: where the first stops in doubt, the second would have to start. -/
def andThen (k l : AtEnd) : AtEnd :=
  ⟨l.stops || k.stops && l.starts, k.starts && l.starts⟩

/-- One reader if a token is there, which no longer is so at the end, and else another. -/
def choice (yes no : AtEnd) : AtEnd :=
  ⟨yes.stops || no.stops || no.starts, no.starts⟩

def le (k l : AtEnd) : Bool :=
  (!k.stops || l.stops) && (!k.starts || l.starts)

theorem andThen_idle (k : AtEnd) : k.andThen .idle = k := by
  obtain ⟨_ | _, _ | _⟩ := k <;> rfl

end AtEnd

namespace Reader

variable {α β : Type} {e : Excerpt} {k l m : AtEnd} {φ : α → α} {ψ : β → β} {x y x' y' : PlainReader α}
  {f f' : α → PlainReader β} {c d c' d' next next' : Cursor} {v w : α}

/-- What the first reader hands back at one cursor, the second hands back at the other, unless the
first gets stuck, or may stop at the end and does. -/
def CarriesFrom (e : Excerpt) (stops : Bool) (φ : α → α) (c d : Cursor) (x y : PlainReader α) : Prop :=
  YieldsFrom c x fun v c' =>
    e.Stuck c' ∨ stops = true ∧ e.Ended c' ∨ ∃ d', y d = .ok (φ v, d') ∧ e.Links c' d'

/-- Wherever it begins, the first reader keeps to what `k` says, and what it hands back does not
depend on what follows the text: at the linked place the second hands it back as well, moved by `φ`. -/
structure Carries (e : Excerpt) (k : AtEnd) (φ : α → α) (x y : PlainReader α) : Prop where
  linked : ∀ c d, e.Links c d → CarriesFrom e k.stops φ c d x y
  stuck : ∀ c, e.Stuck c → YieldsFrom c x fun _ c' => e.Stuck c'
  ended : ∀ c, e.Ended c → YieldsFrom c x fun _ c' => k.starts = true ∧ e.Ended c'

/-! ### Steps -/

theorem CarriesFrom.bind {stops : Bool} (hx : CarriesFrom e stops φ c d x y)
    (hf : ∀ v, Carries e l ψ (f v) (f' (φ v))) (hm : (l.stops || stops && l.starts) = m.stops) :
    CarriesFrom e m.stops ψ c d (x >>= f) (y >>= f') := by
  refine YieldsFrom.bind hx fun v c' h w c'' hw => ?_
  rcases h with hstuck | ⟨hstops, hended⟩ | ⟨d', hy, hlinks⟩
  · exact .inl ((hf v).stuck c' hstuck w c'' hw)
  · obtain ⟨hstarts, hended⟩ := (hf v).ended c' hended w c'' hw
    refine .inr (.inl ⟨?_, hended⟩)
    rw [← hm, hstops, hstarts]
    simp
  · rcases (hf v).linked c' d' hlinks w c'' hw with hstuck | ⟨hstops, hended⟩ | ⟨d'', hf', hlinks⟩
    · exact .inl hstuck
    · refine .inr (.inl ⟨?_, hended⟩)
      rw [← hm, hstops]
      simp
    · exact .inr (.inr ⟨d'', (bind_ok hy).trans hf', hlinks⟩)

theorem Carries.bind (l : AtEnd) (hx : Carries e k φ x y)
    (hf : ∀ v, Carries e l ψ (f v) (f' (φ v))) (hm : k.andThen l = m) :
    Carries e m ψ (x >>= f) (y >>= f') where
  linked c d h := (hx.linked c d h).bind hf (by rw [← hm]; rfl)
  stuck c h := .bind (hx.stuck c h) fun v c' h' => (hf v).stuck c' h'
  ended c h := .bind (hx.ended c h) fun v c' ⟨hstarts, hended⟩ w c'' hw => by
    obtain ⟨hstarts', hended'⟩ := (hf v).ended c' hended w c'' hw
    exact ⟨by rw [← hm, AtEnd.andThen, hstarts, hstarts']; rfl, hended'⟩

theorem CarriesFrom.mono {stops stops' : Bool} (h : CarriesFrom e stops φ c d x y)
    (hle : stops = true → stops' = true) : CarriesFrom e stops' φ c d x y := by
  intro v c' hv
  rcases h v c' hv with hstuck | ⟨hstops, hended⟩ | hlinks
  · exact .inl hstuck
  · exact .inr (.inl ⟨hle hstops, hended⟩)
  · exact .inr (.inr hlinks)

theorem Carries.mono (h : Carries e k φ x y) (hle : k.le l = true) : Carries e l φ x y := by
  obtain ⟨hstops, hstarts⟩ :
      (k.stops = true → l.stops = true) ∧ (k.starts = true → l.starts = true) := by
    simpa [AtEnd.le, Bool.or_eq_true, ← Bool.not_eq_true, Classical.or_iff_not_imp_left] using hle
  exact ⟨fun c d hc => (h.linked c d hc).mono hstops, h.stuck,
    fun c hc v c' hv => (h.ended c hc v c' hv).imp_left hstarts⟩

theorem CarriesFrom.pure {stops : Bool} (hc : e.Links c d) (h : φ v = w) :
    CarriesFrom e stops φ c d (Pure.pure v) (Pure.pure w) := by
  rintro _ _ ⟨⟩
  exact .inr (.inr ⟨d, by rw [h]; rfl, hc⟩)

theorem Carries.pure (h : φ v = w) : Carries e .idle φ (Pure.pure v) (Pure.pure w) where
  linked _ _ hc := .pure hc h
  stuck c hc := by
    rintro _ _ ⟨⟩
    exact hc
  ended c hc := by
    rintro _ _ ⟨⟩
    exact ⟨rfl, hc⟩

/-- A last step that reads nothing. -/
theorem Carries.finish (hx : Carries e k φ x y) {g g' : α → β} (h : ∀ v, ψ (g v) = g' (φ v)) :
    Carries e k ψ (x >>= fun v => Pure.pure (g v)) (y >>= fun v => Pure.pure (g' v)) :=
  hx.bind .idle (fun v => .pure (h v)) k.andThen_idle

theorem CarriesFrom.finish {stops : Bool} (hx : CarriesFrom e stops φ c d x y) {g g' : α → β}
    (h : ∀ v, ψ (g v) = g' (φ v)) :
    CarriesFrom e stops ψ c d (x >>= fun v => Pure.pure (g v)) (y >>= fun v => Pure.pure (g' v)) :=
  hx.bind (l := .idle) (m := ⟨stops, true⟩) (fun v => .pure (h v)) (Bool.and_true stops)

theorem Carries.of_fails (h : ∀ c r, x c ≠ .ok r) : Carries e k φ x y where
  linked _ _ _ v c' hv := absurd hv (h _ (v, c'))
  stuck _ _ v c' hv := absurd hv (h _ (v, c'))
  ended _ _ v c' hv := absurd hv (h _ (v, c'))

theorem Carries.fail (cause : SyntaxCause) : Carries e k φ (Reader.fail cause) y :=
  .of_fails fun _ _ h => nomatch h

/-- A node that has been made, and is handed on. -/
theorem Carries.pure_bind (φ : α → α) {f f' : α → PlainReader β} (hv : φ v = w)
    (h : Carries e k ψ (f v) (f' (φ v))) :
    Carries e k ψ ((Pure.pure v : PlainReader α) >>= f) ((Pure.pure w : PlainReader α) >>= f') := by
  subst hv
  exact ⟨h.linked, h.stuck, h.ended⟩

theorem CarriesFrom.get {stops : Bool} {f f' : Cursor → PlainReader α}
    (h : CarriesFrom e stops φ c d (f c) (f' d)) :
    CarriesFrom e stops φ c d ((MonadState.get : PlainReader Cursor) >>= f)
      ((MonadState.get : PlainReader Cursor) >>= f') := h

theorem CarriesFrom.set {stops : Bool} {f f' : Unit → PlainReader α}
    (h : CarriesFrom e stops φ next next' (f ()) (f' ())) :
    CarriesFrom e stops φ c d ((MonadStateOf.set next : PlainReader Unit) >>= f)
      ((MonadStateOf.set next' : PlainReader Unit) >>= f') := h

theorem Carries.cond {p : Prop} [Decidable p] (h : Carries e k φ x y) (h' : Carries e k φ x' y') :
    Carries e k φ (if p then x else x') (if p then y else y') := by
  split
  · exact h
  · exact h'

/-- A part that may be missing, read because it is there. -/
theorem Carries.some (h : Carries e k φ x y) :
    Carries e k (Option.map φ) (Option.some <$> x) (Option.some <$> y) := by
  rw [← bind_pure_comp, ← bind_pure_comp]
  exact h.finish fun _ => rfl

/-- Readers that do the same where they succeed. -/
theorem Carries.of_ok (h : Carries e k φ x' y') (hx : ∀ c r, x c = .ok r → x' c = .ok r)
    (hy : ∀ d r, y' d = .ok r → y d = .ok r) : Carries e k φ x y where
  linked c d hc v c' hv := by
    rcases h.linked c d hc v c' (hx c _ hv) with hstuck | hended | ⟨d', hw, hlinks⟩
    · exact .inl hstuck
    · exact .inr (.inl hended)
    · exact .inr (.inr ⟨d', hy d _ hw, hlinks⟩)
  stuck c hc v c' hv := h.stuck c hc v c' (hx c _ hv)
  ended c hc v c' hv := h.ended c hc v c' (hx c _ hv)

/-! ### Tokens -/

/-- Where no case is exceptional, linked cursors have linked next tokens. -/
theorem Carries.intro (hstarts : k.starts = true → k.stops = true)
    (hstuck : ∀ c, e.Stuck c → YieldsFrom c x fun _ c' => e.Stuck c')
    (hended : ∀ c, e.Ended c → YieldsFrom c x fun _ c' => k.starts = true ∧ e.Ended c')
    (h : ∀ c d, e.Links c d → ¬e.Ended c → ¬e.Stuck c → CarriesFrom e k.stops φ c d x y) :
    Carries e k φ x y := by
  refine ⟨fun c d hlinks => ?_, hstuck, hended⟩
  by_cases hs : e.Stuck c
  · exact fun v c' hv => .inl (hstuck c hs v c' hv)
  by_cases he : e.Ended c
  · exact fun v c' hv => .inr (.inl ((hended c he v c' hv).imp_left hstarts))
  · exact h c d hlinks he hs

theorem carries_skip (e : Excerpt) :
    Carries e .optional id (modify Cursor.skip : PlainReader Unit) (modify Cursor.skip) := by
  refine .intro id ?_ ?_ fun c d h he hs => ?_
  · rintro c h _ _ ⟨⟩
    exact Excerpt.stuck_skip.mpr h
  · rintro c h _ _ ⟨⟩
    exact ⟨rfl, Excerpt.ended_skip.mpr h⟩
  · rintro _ _ ⟨⟩
    exact .inr (.inr ⟨_, rfl, h.skip he hs⟩)

/-- The line of the next token is counted from the first of the longer text. -/
theorem carries_here (e : Excerpt) : Carries e .optional (· + e.lines) here here := by
  refine .intro id ?_ ?_ fun c d h he hs => ?_
  · rintro c h _ _ ⟨⟩
    exact Excerpt.stuck_skip.mpr h
  · rintro c h _ _ ⟨⟩
    exact ⟨rfl, Excerpt.ended_skip.mpr h⟩
  · rintro _ _ ⟨⟩
    have hskip := h.skip he hs
    have hline : d.skip.position.line = c.skip.position.line + e.lines := by
      rw [hskip.position_eq]
      rfl
    exact .inr (.inr ⟨d.skip, congrArg (fun line => Except.ok (line, d.skip)) hline, hskip⟩)

theorem carries_peekSymbol (e : Excerpt) (symbol : String) :
    Carries e .optional id (peekSymbol symbol) (peekSymbol symbol) := by
  refine .intro id ?_ ?_ fun c d h he hs => ?_
  · rintro c h _ _ ⟨⟩
    exact h
  · rintro c h _ _ ⟨⟩
    exact ⟨rfl, h⟩
  · rintro _ _ ⟨⟩
    have hpast := h.pastSymbol? he hs symbol
    refine .inr (.inr ⟨d, ?_, h⟩)
    rw [peekSymbol, get_bind_apply]
    generalize c.pastSymbol? symbol = o, d.pastSymbol? symbol = o' at hpast ⊢
    cases hpast <;> rfl

/-- Reads on behind a token if it is there. -/
def onward (past? : Cursor → Option Cursor) : PlainReader Bool := do
  match past? (← get) with
  | some next => set next; pure true
  | none => pure false

theorem acceptWord_eq_onward (word : String) : acceptWord word = onward (Cursor.pastWord? word) := rfl

theorem onward_of_some {past? : Cursor → Option Cursor} (h : past? c = some next)
    (f : Bool → PlainReader β) : (onward past? >>= f) c = f true next := by
  rw [bind_apply, onward, get_bind_apply, h]
  rfl

theorem onward_of_none {past? : Cursor → Option Cursor} (h : past? c = none) (f : Bool → PlainReader β) :
    (onward past? >>= f) c = f false c := by
  rw [bind_apply, onward, get_bind_apply, h]
  rfl

/-- Where no case is exceptional, both read on or none does. -/
theorem carriesFrom_onward {past? : Cursor → Option Cursor} {f f' : Bool → PlainReader β} {stops : Bool}
    (hpast : Option.Rel e.Links (past? c) (past? d))
    (hyes : ∀ c d, e.Links c d → CarriesFrom e stops ψ c d (f true) (f' true))
    (hno : CarriesFrom e stops ψ c d (f false) (f' false)) :
    CarriesFrom e stops ψ c d (onward past? >>= f) (onward past? >>= f') := by
  rw [CarriesFrom, YieldsFrom]
  cases hc : past? c with
  | none =>
      cases hd : past? d with
      | none =>
          rw [onward_of_none hc, onward_of_none hd]
          exact hno
      | some next' =>
          rw [hc, hd] at hpast
          cases hpast
  | some next =>
      cases hd : past? d with
      | none =>
          rw [hc, hd] at hpast
          cases hpast
      | some next' =>
          rw [hc, hd] at hpast
          cases hpast with
          | some hnext =>
              rw [onward_of_some hc, onward_of_some hd]
              exact hyes next next' hnext

/-- A token may be there or not. -/
theorem Carries.onward {past? : Cursor → Option Cursor} {f f' : Bool → PlainReader β} (k l : AtEnd)
    (hyes : Carries e k ψ (f true) (f' true)) (hno : Carries e l ψ (f false) (f' false))
    (hpast : ∀ c d, e.Links c d → ¬e.Ended c → ¬e.Stuck c → Option.Rel e.Links (past? c) (past? d))
    (hended : ∀ c, e.Ended c → past? c = none) (hstuck : ∀ c, e.Stuck c → past? c = none) :
    Carries e (k.choice l) ψ (Reader.onward past? >>= f) (Reader.onward past? >>= f') := by
  refine .intro ?_ (fun c h => ?_) (fun c h => ?_) fun c d h he hs => ?_
  · simp +contextual [AtEnd.choice]
  · rw [YieldsFrom, onward_of_none (hstuck c h)]
    exact hno.stuck c h
  · rw [YieldsFrom, onward_of_none (hended c h)]
    exact hno.ended c h
  · refine carriesFrom_onward (hpast c d h he hs) (fun c d h => ?_) ?_
    · exact (hyes.linked c d h).mono (by simp +contextual [AtEnd.choice])
    · exact (hno.linked c d h).mono (by simp +contextual [AtEnd.choice])

theorem Carries.accept {f f' : Bool → PlainReader β} {symbol : String} (k l : AtEnd) (hslash : symbol ≠ "/")
    (hyes : Carries e k ψ (f true) (f' true)) (hno : Carries e l ψ (f false) (f' false))
    (hm : k.choice l = m) :
    Carries e m ψ (acceptSymbol symbol >>= f) (acceptSymbol symbol >>= f') :=
  hm ▸ .onward k l hyes hno (fun _ _ h he hs => h.pastSymbol? he hs symbol)
    (fun _ h => h.pastSymbol? symbol) fun _ h => h.pastSymbol? hslash

theorem Carries.acceptWord {f f' : Bool → PlainReader β} {word : String} (k l : AtEnd)
    (hyes : Carries e k ψ (f true) (f' true)) (hno : Carries e l ψ (f false) (f' false))
    (hm : k.choice l = m) :
    Carries e m ψ (acceptWord word >>= f) (acceptWord word >>= f') :=
  hm ▸ .onward k l hyes hno (fun _ _ h he hs => h.pastWord? he hs word)
    (fun _ h => h.pastWord? word) fun _ h => h.pastWord? word

/-- A part may be there behind a word. -/
theorem Carries.choose {word : String} {f f' : α → PlainReader β} (hyes : Carries e .closed φ x y)
    (hno : Carries e .idle φ x' y') (hf : ∀ v, Carries e .closed ψ (f v) (f' (φ v))) :
    Carries e .closed ψ (Reader.acceptWord word >>= fun b => if b then x >>= f else x' >>= f)
      (Reader.acceptWord word >>= fun b => if b then y >>= f' else y' >>= f') :=
  .acceptWord .closed .closed (hyes.bind .closed hf rfl) (hno.bind .closed hf rfl) rfl

/-- The alternative of an `if` is not in the longer text either, where the text ends. -/
theorem Carries.acceptElse {f f' : Bool → PlainReader β} {word : String} (k : AtEnd)
    (hword : word ∈ ["else", "elseif"]) (hk : k.stops = false)
    (hyes : Carries e k ψ (f true) (f' true)) (hno : Carries e .idle ψ (f false) (f' false)) :
    Carries e .idle ψ (Reader.acceptWord word >>= f) (Reader.acceptWord word >>= f') where
  linked c d h := by
    by_cases hs : e.Stuck c
    · rw [CarriesFrom, YieldsFrom, acceptWord_eq_onward, onward_of_none (hs.pastWord? word)]
      exact fun v c' hv => .inl (hno.stuck c hs v c' hv)
    by_cases he : e.Ended c
    · rw [CarriesFrom, YieldsFrom, acceptWord_eq_onward, onward_of_none (he.pastWord? word),
        onward_of_none (h.pastWord?_else he hword)]
      exact hno.linked c d h
    · refine carriesFrom_onward (h.pastWord? he hs word) (fun c d h => ?_) (hno.linked c d h)
      exact (hyes.linked c d h).mono (by simp [hk])
  stuck c h := by
    rw [YieldsFrom, acceptWord_eq_onward, onward_of_none (h.pastWord? word)]
    exact hno.stuck c h
  ended c h := by
    rw [YieldsFrom, acceptWord_eq_onward, onward_of_none (h.pastWord? word)]
    exact hno.ended c h

/-- A symbol must be there. -/
theorem carries_expectSymbol (e : Excerpt) {symbol : String} (hslash : symbol ≠ "/") :
    Carries e .closed id (expectSymbol symbol) (expectSymbol symbol) := by
  refine .accept .idle .closed hslash (.pure rfl) ?_ rfl
  exact .of_fails fun _ _ h => nomatch h

/-- The next symbol decides. Where there is none, and at the slash of a comment that is not closed,
other readers do at least the same. -/
theorem Carries.bySymbol (hstarts : k.starts = true → k.stops = true) (hno : Carries e k φ x' y')
    (hx : ∀ c, c.symbol? = none → x c = x' c) (hy : ∀ d, d.symbol? = none → y d = y' d)
    (hslash : ∀ c next inner, c.symbol? = Option.some ("/", next) → next.rest = '*' :: inner →
      ∀ r, x c = .ok r → x' c = .ok r)
    (hsome : ∀ symbol c d next next', e.Links c d → e.Links next next' →
      c.symbol? = Option.some (symbol, next) → d.symbol? = Option.some (symbol, next') →
        CarriesFrom e k.stops φ c d x y) :
    Carries e k φ x y := by
  refine .intro hstarts (fun c h v c' hv => ?_) (fun c h => ?_) fun c d h he hs => ?_
  · obtain ⟨next, inner, hnext, hrest⟩ := h.symbol?
    exact hno.stuck c h v c' (hslash c next inner hnext hrest (v, c') hv)
  · rw [YieldsFrom, hx c h.symbol?]
    exact hno.ended c h
  · rcases Excerpt.linksBehind_cases (h.symbol? he hs) with
      ⟨hc, hd⟩ | ⟨symbol, next, next', hc, hd, hnext⟩
    · rw [CarriesFrom, YieldsFrom, hx c hc, hy d hd]
      exact hno.linked c d h
    · exact hsome symbol c d next next' h hnext hc hd

/-- The next word decides. -/
theorem Carries.byWord (hstarts : k.starts = true → k.stops = true) (hno : Carries e k φ x' y')
    (hx : ∀ c, c.word? = none → x c = x' c) (hy : ∀ d, d.word? = none → y d = y' d)
    (hsome : ∀ word c d next next', e.Links c d → e.Links next next' →
      c.word? = Option.some (word, next) → d.word? = Option.some (word, next') →
        CarriesFrom e k.stops φ c d x y) :
    Carries e k φ x y := by
  refine .intro hstarts (fun c h => ?_) (fun c h => ?_) fun c d h he hs => ?_
  · rw [YieldsFrom, hx c h.word?]
    exact hno.stuck c h
  · rw [YieldsFrom, hx c h.word?]
    exact hno.ended c h
  · rcases Excerpt.linksBehind_cases (h.word? he hs) with
      ⟨hc, hd⟩ | ⟨word, next, next', hc, hd, hnext⟩
    · rw [CarriesFrom, YieldsFrom, hx c hc, hy d hd]
      exact hno.linked c d h
    · exact hsome word c d next next' h hnext hc hd

/-- The next character decides. Where it begins no token, another reader does at least the same. -/
theorem Carries.byCharacter (hstarts : k.starts = true → k.stops = true) (hno : Carries e k φ x' y')
    (hx : ∀ c, (∀ ch cs, c.rest = ch :: cs → startsToken ch = false) →
      YieldsFrom c x fun v next => x' c = .ok (v, next))
    (hnil : ∀ c d, e.Links c d → c.rest = [] → d.rest = [] → CarriesFrom e k.stops φ c d x y)
    (hcons : ∀ c d ch cs, e.Links c d → ¬e.Ended c → ¬e.Stuck c → c.rest = ch :: cs →
      d.rest = ch :: (cs ++ e.tail) → CarriesFrom e k.stops φ c d x y) :
    Carries e k φ x y := by
  refine .intro hstarts (fun c h v c' hv => ?_) (fun c h v c' hv => ?_) fun c d h he hs => ?_
  · exact hno.stuck c h v c' (hx c (fun _ _ => h.not_startsToken) v c' hv)
  · exact hno.ended c h v c' (hx c (fun _ _ => h.not_startsToken) v c' hv)
  · cases hrest : c.rest with
    | nil =>
        have htail : e.tail = [] := Excerpt.tail_eq_nil he (by rw [rest_skip, hrest]; rfl)
        exact hnil c d h hrest (by rw [h.rest_eq, hrest, htail]; rfl)
    | cons ch cs => exact hcons c d ch cs h he hs hrest (by rw [h.rest_eq, hrest]; rfl)

/-! ### Identifiers -/

/-- Where no case is exceptional, both read the same identifier or none does. -/
theorem links_identifier (sigil : Char) (h : e.Links c d) (he : ¬e.Ended c) (hs : ¬e.Stuck c) :
    (∃ failure failure', (identifier sigil : PlainReader String) c = .error failure ∧
        (identifier sigil : PlainReader String) d = .error failure') ∨
      ∃ text next next', (identifier sigil : PlainReader String) c = .ok (text, next) ∧
        (identifier sigil : PlainReader String) d = .ok (text, next') ∧ e.Links next next' := by
  have hword := (h.skip he hs).wordHere? (Excerpt.tail_eq_nil he) (isIdentifierStart sigil)
  rcases Excerpt.linksBehind_cases hword with ⟨hc, hd⟩ | ⟨text, next, next', hc, hd, hnext⟩
  · exact .inl ⟨_, _, identifier_of_none hc, identifier_of_none hd⟩
  · rw [identifier_of_some hc, identifier_of_some hd]
    split
    · exact .inl ⟨_, _, rfl, rfl⟩
    · exact .inr ⟨text, next, next', rfl, rfl, hnext⟩

theorem carries_identifier (e : Excerpt) {sigil : Char} (hsigil : sigil ≠ '/') :
    Carries e .closed id (identifier sigil) (identifier sigil) := by
  have hslash : isIdentifierStart sigil '/' = false := by
    simp only [isIdentifierStart, decide_eq_false hsigil.symm]
    decide
  refine .intro (by decide) (fun c h v c' hv => ?_) (fun c h v c' hv => ?_) fun c d h he hs => ?_
  · rw [identifier_of_none (h.wordHere? hslash)] at hv
    cases hv
  · rw [identifier_of_none (h.wordHere? _)] at hv
    cases hv
  · intro v c' hv
    rcases links_identifier sigil h he hs with
      ⟨failure, -, hc, -⟩ | ⟨text, next, next', hc, hd, hnext⟩
    · rw [hc] at hv
      cases hv
    · rw [hc] at hv
      cases hv
      exact .inr (.inr ⟨next', hd, hnext⟩)

/-! ### Literals -/

theorem carriesFrom_number (h : e.Links c d) (he : ¬e.Ended c) (hs : ¬e.Stuck c) :
    CarriesFrom e false id c d number number := by
  have hskip := h.skip he hs
  intro v c' hv
  rw [number, get_bind_apply] at hv ⊢
  rw [hskip.rest_eq, Excerpt.hexDigits?_tail]
  cases hdigits : hexDigits? c.skip.rest with
  | none =>
      simp only [hdigits] at hv
      cases hv
      rw [Excerpt.scan_tail]
      exact .inr (.inr ⟨_, rfl, hskip.advance (Excerpt.length_scan_le _)⟩)
  | some digits =>
      simp only [hdigits] at hv ⊢
      split at hv
      · rename_i hvalue
        cases hv
        rw [if_pos hvalue]
        exact .inr (.inr ⟨_, rfl, hskip.advance (Excerpt.length_hexDigits?_le hdigits)⟩)
      · cases hv

theorem carriesFrom_string (h : e.Links c d) (he : ¬e.Ended c) (hs : ¬e.Stuck c) {quote : Char}
    (hrest : c.skip.rest ≠ []) : CarriesFrom e false id c d (string quote) (string quote) := by
  have hskip := h.skip he hs
  have hlength : 1 ≤ c.skip.rest.length := List.length_pos_iff.mpr hrest
  have hquote := hskip.advance hlength
  intro v c' hv
  rw [string, get_bind_apply] at hv ⊢
  rw [← Cursor.rest_advance] at hv ⊢
  cases hread : readQuoted quote [] (c.skip.advance 1).position (c.skip.advance 1).rest with
  | none =>
      simp only [hread] at hv
      cases hv
  | some r =>
      obtain ⟨read, next⟩ := r
      simp only [hread] at hv
      cases hv
      obtain ⟨next', hread', hnext⟩ := Excerpt.links_readQuoted hread hquote.last_eq
      rw [← hquote.position_eq, ← hquote.rest_eq] at hread'
      refine .inr (.inr ⟨next', ?_, hnext⟩)
      simp only [hread']
      rfl

end Reader

end SnippetRewrite
