import SnippetRewrite.Proofs.Parse.Progress
import SnippetRewrite.Proofs.Syntax.Shape

/-!
Two readers side by side. The first makes trees; the second works in any monad and makes nodes of any
kind. The first may be made for texts up to some length and give up where a text exceeds it. Nodes
that have been made are owed to a parent until one is made that holds them. What is claimed of the
owed nodes and of the state of the second reader, what is asked of identifiers, and whether failures
count is left open; from what one step does to the owed nodes follows what whole readers do to them.
-/

namespace SnippetRewrite

/-- Nodes that no other node holds yet, in the order in which they were made: the trees of the first
reader with what the second has made in their place. -/
abbrev Owed (ν : Type) := List (Tree × ν)

/-- What two readers are compared on. -/
structure Pairing (m : Type → Type) (ν : Type) where
  /-- What the second reader works on. -/
  State : Type
  run : {β : Type} → m β → State → Except SyntaxFailure (β × State)
  /-- What holds of the owed nodes at each place. -/
  Inv : Owed ν → Cursor → State → Prop
  /-- What holds of every identifier. -/
  Word : String → Prop
  /-- The row of a line: the line itself, or the same for all where their order does not count. -/
  row : Nat → Nat
  /-- Whether the second reader has to fail where the first one does. -/
  failures : Prop
  /-- The first reader gives up only where fewer characters are left. -/
  limit : Nat

namespace Pairing

section

variable {m : Type → Type} {ν α β : Type}

/-- A node that may be missing begins on a row or behind it. -/
def Behind (k : Pairing m ν) (low : Nat) (p : Option (Tree × ν)) : Prop :=
  ∀ q ∈ p, low ≤ k.row q.1.line

/-- Begun at one place with the same nodes owed, the second reader ends as the first one does, further
on, with what has come to be owed; unless the first gives up or failures do not count. -/
def Rel (k : Pairing m ν) (s : Owed ν) (c : Cursor) (x : PlainReader α) (y : Reader m β)
    (Q : α → β → Owed ν → Cursor → Prop) : Prop :=
  ∀ a, k.Inv s c a →
    (∀ v d, x c = .ok (v, d) → c.Reaches d ∧
      ∃ w s' b, k.run (y c) a = .ok ((w, d), b) ∧ k.Inv s' d b ∧ Q v w s' d) ∧
    ∀ f, x c = .error f → c.Reaches f.place ∧
      (f.cause = .nesting → f.place.rest.length < k.limit) ∧
      (f.cause ≠ .nesting → k.failures → k.run (y c) a = .error f)

variable {k : Pairing m ν} {s : Owed ν} {c : Cursor} {x : PlainReader α} {y : Reader m β}
  {P Q : α → β → Owed ν → Cursor → Prop} {low low' : Nat}

theorem Behind.mono {p : Option (Tree × ν)} (h : k.Behind low' p) (hlow : low ≤ low') :
    k.Behind low p :=
  fun q hq => Nat.le_trans hlow (h q hq)

@[simp] theorem behind_none : k.Behind low none :=
  fun _ h => nomatch h

@[simp] theorem behind_some {p : Tree × ν} : k.Behind low (some p) ↔ low ≤ k.row p.1.line := by
  simp [Behind]

theorem Rel.of_inv (h : ∀ a, k.Inv s c a → k.Rel s c x y Q) : k.Rel s c x y Q :=
  fun a ha => h a ha a ha

theorem Rel.mono (h : k.Rel s c x y P) (hPQ : ∀ v w s' d, P v w s' d → Q v w s' d) :
    k.Rel s c x y Q := by
  intro a ha
  refine ⟨fun v d hv => ?_, (h a ha).2⟩
  obtain ⟨hd, w, s', b, hw, hb, hP⟩ := (h a ha).1 v d hv
  exact ⟨hd, w, s', b, hw, hb, hPQ v w s' d hP⟩

/-- Where the first reader fails anyway and failures do not count, the second may do anything. -/
theorem Rel.never {y' : Reader m β} (h : k.Rel s c x y Q) (hx : ∀ r, x c ≠ .ok r)
    (hk : ¬k.failures) : k.Rel s c x y' Q := by
  intro a ha
  refine ⟨fun v d hv => absurd hv (hx _), fun f hf => ?_⟩
  obtain ⟨hplace, hlimit, -⟩ := (h a ha).2 f hf
  exact ⟨hplace, hlimit, fun _ hfails => absurd hfails hk⟩

/-- A reader that has made all its rounds gives up where it is. -/
theorem Rel.giveUp (h : c.rest.length < k.limit) : k.Rel s c (Reader.fail .nesting) y Q := by
  intro a _
  refine ⟨fun _ _ hv => (nomatch hv), ?_⟩
  rintro _ ⟨⟩
  exact ⟨.refl c, fun _ => h, fun hcause => absurd rfl hcause⟩

theorem Rel.cond {p : Prop} [Decidable p] {x' : PlainReader α} {y' : Reader m β}
    (hx : p → k.Rel s c x y P) (hy : ¬p → k.Rel s c x' y' P) :
    k.Rel s c (if p then x else x') (if p then y else y') P := by
  split
  · exact hx ‹_›
  · exact hy ‹_›

/-- What a token hands back to both readers, with nothing made: fewer than `n` characters are left. -/
def Reads (s : Owed ν) (n : Nat) (v w : α) (s' : Owed ν) (d : Cursor) : Prop :=
  w = v ∧ s' = s ∧ d.rest.length < n

/-- One node has been made, which begins on a row or behind it. -/
def Makes (k : Pairing m ν) (s : Owed ν) (low n : Nat) (t : Tree) (w : ν) (s' : Owed ν) (d : Cursor) : Prop :=
  s' = s ++ [(t, w)] ∧ low ≤ k.row t.line ∧ d.rest.length < n

theorem Rel.widen {x : PlainReader Tree} {y : Reader m ν} {owed : Owed ν} {low low' n n' : Nat}
    (h : k.Rel owed c x y (k.Makes s low' n)) (hlow : low ≤ low') (hn : n ≤ n') :
    k.Rel owed c x y (k.Makes s low n') :=
  h.mono fun _ _ _ _ ⟨hs, hlow', hd⟩ =>
    ⟨hs, Nat.le_trans hlow hlow', Nat.lt_of_lt_of_le hd hn⟩

/-- At most one node has been made. -/
def MakesOne? (k : Pairing m ν) (s : Owed ν) (low n : Nat) (t : Option Tree) (w : Option ν) (s' : Owed ν)
    (d : Cursor) : Prop :=
  ∃ p : Option (Tree × ν), t = p.map Prod.fst ∧ w = p.map Prod.snd ∧ s' = s ++ p.toList ∧
    k.Behind low p ∧ d.rest.length < n

/-- Any number of nodes have been made. -/
def MakesAll (k : Pairing m ν) (s : Owed ν) (low n : Nat) (ts : List Tree) (ws : List ν) (s' : Owed ν) (d : Cursor) :
    Prop :=
  ∃ ps : Owed ν, ts = ps.map Prod.fst ∧ ws = ps.map Prod.snd ∧ s' = s ++ ps ∧
    (∀ p ∈ ps, low ≤ k.row p.1.line) ∧ d.rest.length < n

/-- A node is made, of nodes that were owed last. -/
theorem Rel.make {x : PlainReader Tree} {y : Reader m ν} {t : Tree} {owed : Owed ν} {low n : Nat}
    (hx : x c = .ok (t, c))
    (hmade : ∀ a, k.Inv owed c a → ∃ w b, k.run (y c) a = .ok ((w, c), b) ∧ k.Inv (s ++ [(t, w)]) c b)
    (hlow : low ≤ k.row t.line) (hn : c.rest.length < n) : k.Rel owed c x y (k.Makes s low n) := by
  intro a ha
  rw [hx]
  refine ⟨?_, fun _ hf => nomatch hf⟩
  rintro _ _ ⟨⟩
  obtain ⟨w, b, hw, hb⟩ := hmade a ha
  exact ⟨.refl c, w, _, b, hw, hb, rfl, hlow, hn⟩

end

variable {m : Type → Type} {ν : Type} [Monad m] [MonadExceptOf SyntaxFailure m] [Nodes m ν]

/-- The second reader runs step by step, and what holds of the owed nodes goes on to hold when the
readers move forward and when they make a node of nodes owed last, on a line that neither these nor
the cursor come before. -/
class Lawful (k : Pairing m ν) : Prop where
  run_pure {β : Type} (v : β) (a : k.State) : k.run (pure v) a = .ok (v, a)
  run_bind {α β : Type} (x : m α) (f : α → m β) (a : k.State) :
    k.run (x >>= f) a = k.run x a >>= fun r => k.run (f r.1) r.2
  run_throw {β : Type} (failure : SyntaxFailure) (a : k.State) :
    k.run (throwThe SyntaxFailure failure : m β) a = .error failure
  row_mono {line line' : Nat} (h : line ≤ line') : k.row line ≤ k.row line'
  row_le_of_mem {s : Owed ν} {c : Cursor} {a : k.State} {p : Tree × ν} (h : k.Inv s c a)
    (hp : p ∈ s) : k.row p.1.line ≤ k.row c.position.line
  moves {s : Owed ν} {c d : Cursor} {a : k.State} (h : k.Inv s c a) (hd : c.Reaches d) : k.Inv s d a
  mark {text : String} (h : k.Word text) : k.Word ("?" ++ text)
  name {s : Owed ν} {c : Cursor} {a : k.State} {text : String} {line : Nat} (h : k.Inv s c a)
    (htext : k.Word text) (hline : k.row line ≤ k.row c.position.line) :
    ∃ w b, k.run (Nodes.name text line c : m (ν × Cursor)) a = .ok ((w, c), b) ∧
      k.Inv (s ++ [(.name text line, w)]) c b
  var {s : Owed ν} {c : Cursor} {a : k.State} {text : String} {line : Nat} (h : k.Inv s c a)
    (htext : k.Word text) (hline : k.row line ≤ k.row c.position.line) :
    ∃ w b, k.run (Nodes.var text line c : m (ν × Cursor)) a = .ok ((w, c), b) ∧
      k.Inv (s ++ [(.var text line, w)]) c b
  literal {s : Owed ν} {c : Cursor} {a : k.State} {line : Nat} (value : Value) (h : k.Inv s c a)
    (hline : k.row line ≤ k.row c.position.line) :
    ∃ w b, k.run (Nodes.literal value line c : m (ν × Cursor)) a = .ok ((w, c), b) ∧
      k.Inv (s ++ [(.literal value line, w)]) c b
  fixed {s : Owed ν} {c : Cursor} {a : k.State} {kind : FixedKind} {line : Nat}
    {slots : List (Option (Tree × ν))} (h : k.Inv (s ++ slots.flatMap Option.toList) c a)
    (harity : slots.length = kind.arity) (hslots : ∀ o ∈ slots, k.Behind (k.row line) o)
    (hline : k.row line ≤ k.row c.position.line) :
    ∃ w b, k.run (Nodes.fixed kind (slots.map (Option.map Prod.snd)) line c : m (ν × Cursor)) a =
        .ok ((w, c), b) ∧
      k.Inv (s ++ [(.fixed kind (slots.map (Option.map Prod.fst)) line, w)]) c b
  /-- The return type of a function is made before its body. -/
  decl {s : Owed ν} {c : Cursor} {a : k.State} {kind : DeclKind} {line : Nat}
    {slots : List (Option (Tree × ν))} (name : String) (flags : Nat)
    (h : k.Inv (s ++ (swapLast slots).flatMap Option.toList) c a) (harity : slots.length = kind.arity)
    (hslots : ∀ o ∈ slots, k.Behind (k.row line) o) (hline : k.row line ≤ k.row c.position.line) :
    ∃ w b, k.run (Nodes.decl kind name flags (slots.map (Option.map Prod.snd)) line c :
        m (ν × Cursor)) a = .ok ((w, c), b) ∧
      k.Inv (s ++ [(.node line (.decl kind name flags) (slots.map (Option.map Prod.fst)), w)]) c b
  list {s items : Owed ν} {c : Cursor} {a : k.State} {line : Nat} (kind : ListKind)
    (h : k.Inv (s ++ items) c a) (hitems : ∀ p ∈ items, k.row line ≤ k.row p.1.line)
    (hline : k.row line ≤ k.row c.position.line) :
    ∃ w b, k.run (Nodes.list kind (items.map Prod.snd) line c : m (ν × Cursor)) a =
        .ok ((w, c), b) ∧
      k.Inv (s ++ [(.list kind (items.map Prod.fst) line, w)]) c b
  lineOf {s : Owed ν} {c : Cursor} {a : k.State} {t : Tree} {w : ν} (h : k.Inv s c a)
    (hw : (t, w) ∈ s) :
    k.run (Nodes.lineOf w c : m (Nat × Cursor)) a = .ok ((t.line, c), a)

variable {α β γ δ : Type} {k : Pairing m ν} [k.Lawful] {s : Owed ν} {c d : Cursor}
  {x : PlainReader α} {y : Reader m β} {P : α → β → Owed ν → Cursor → Prop}
  {R : γ → δ → Owed ν → Cursor → Prop} {f : α → PlainReader γ} {f' : β → Reader m δ}

/-! ### Steps -/

theorem row_le (k : Pairing m ν) [k.Lawful] {c d : Cursor} (h : c.Reaches d) :
    k.row c.position.line ≤ k.row d.position.line :=
  Lawful.row_mono h.line_le

theorem run_bind_reader (y : Reader m β) (f' : β → Reader m δ) (c : Cursor) (a : k.State) :
    k.run ((y >>= f') c) a = k.run (y c) a >>= fun r => k.run (f' r.1.1 r.1.2) r.2 :=
  Lawful.run_bind (y c) (fun r => f' r.1 r.2) a

theorem run_bind_of_ok {w : β} {a b : k.State} (h : k.run (y c) a = .ok ((w, d), b)) :
    k.run ((y >>= f') c) a = k.run (f' w d) b := by
  rw [run_bind_reader, h]
  rfl

theorem run_bind_of_error {failure : SyntaxFailure} {a : k.State}
    (h : k.run (y c) a = .error failure) : k.run ((y >>= f') c) a = .error failure := by
  rw [run_bind_reader, h]
  rfl

theorem run_failAt (failure : SyntaxFailure) (c : Cursor) (a : k.State) :
    k.run ((Reader.failAt failure.cause failure.place : Reader m β) c) a = .error failure :=
  (Lawful.run_bind _ _ a).trans (by rw [Lawful.run_throw]; rfl)

theorem Rel.pure {v : α} {w : β} (h : P v w s c) :
    k.Rel s c (Pure.pure v) (Pure.pure w : Reader m β) P := by
  intro a ha
  refine ⟨?_, fun f hf => nomatch hf⟩
  rintro _ _ ⟨⟩
  exact ⟨.refl c, w, s, a, Lawful.run_pure (w, c) a, ha, h⟩

theorem Rel.pure_bind {v : α} {w : β} (h : k.Rel s c (f v) (f' w) R) :
    k.Rel s c ((Pure.pure v : PlainReader α) >>= f) ((Pure.pure w : Reader m β) >>= f') R := by
  intro a ha
  have hrun : k.run (((Pure.pure w : Reader m β) >>= f') c) a = k.run (f' w c) a :=
    run_bind_of_ok (Lawful.run_pure (w, c) a)
  rw [hrun]
  exact h a ha

/-- One reader behind another: the lines of the text go on, and what is left of it gets no longer. -/
theorem Rel.bind (hx : k.Rel s c x y P)
    (hf : ∀ v w s' d, c.Reaches d → k.row c.position.line ≤ k.row d.position.line →
      d.rest.length ≤ c.rest.length → P v w s' d → k.Rel s' d (f v) (f' w) R) :
    k.Rel s c (x >>= f) (y >>= f') R := by
  intro a ha
  cases hxc : x c with
  | ok r =>
      obtain ⟨v, d⟩ := r
      obtain ⟨hd, w, s', b, hw, hb, hP⟩ := (hx a ha).1 v d hxc
      obtain ⟨hok, herror⟩ := hf v w s' d hd (k.row_le hd) hd.length_le hP b hb
      rw [Reader.bind_ok hxc, run_bind_of_ok hw]
      exact ⟨fun u e hu => ⟨hd.trans (hok u e hu).1, (hok u e hu).2⟩,
        fun failure hfailure => ⟨hd.trans (herror failure hfailure).1, (herror failure hfailure).2⟩⟩
  | error failure =>
      rw [Reader.bind_error hxc]
      refine ⟨fun _ _ hu => (nomatch hu), ?_⟩
      rintro _ ⟨⟩
      obtain ⟨hplace, hlimit, hfails⟩ := (hx a ha).2 failure hxc
      exact ⟨hplace, hlimit, fun hcause hk => run_bind_of_error (hfails hcause hk)⟩

section

variable {x : PlainReader β} {y : Reader m β} {f : β → PlainReader γ} {low n : Nat}

theorem Rel.token (hx : k.Rel s c x y (Reads s n))
    (hf : ∀ v d, k.row c.position.line ≤ k.row d.position.line → d.rest.length < n → k.Rel s d (f v) (f' v) R) :
    k.Rel s c (x >>= f) (y >>= f') R := by
  refine hx.bind fun v w s' d _ hl _ hreads => ?_
  obtain ⟨rfl, rfl, hn⟩ := hreads
  exact hf w d hl hn

end

section

variable {low n : Nat} {owed : Owed ν}

theorem Rel.node {x : PlainReader Tree} {y : Reader m ν} {f : Tree → PlainReader γ}
    {f' : ν → Reader m δ} (hx : k.Rel owed c x y (k.Makes s low n))
    (hf : ∀ t w d, k.row c.position.line ≤ k.row d.position.line → d.rest.length < n → low ≤ k.row t.line →
      k.Rel (s ++ [(t, w)]) d (f t) (f' w) R) : k.Rel owed c (x >>= f) (y >>= f') R := by
  refine hx.bind fun t w s' d _ hl _ hmakes => ?_
  obtain ⟨rfl, hlow, hn⟩ := hmakes
  exact hf t w d hl hn hlow

theorem Rel.node? {x : PlainReader (Option Tree)} {y : Reader m (Option ν)}
    {f : Option Tree → PlainReader γ} {f' : Option ν → Reader m δ}
    (hx : k.Rel owed c x y (k.MakesOne? s low n))
    (hf : ∀ (p : Option (Tree × ν)) d, k.row c.position.line ≤ k.row d.position.line → d.rest.length < n → k.Behind low p →
      k.Rel (s ++ p.toList) d (f (p.map Prod.fst)) (f' (p.map Prod.snd)) R) :
    k.Rel owed c (x >>= f) (y >>= f') R := by
  refine hx.bind fun t w s' d _ hl _ hmakes => ?_
  obtain ⟨p, rfl, rfl, rfl, hp, hn⟩ := hmakes
  exact hf p d hl hn hp

theorem Rel.nodes {x : PlainReader (List Tree)} {y : Reader m (List ν)}
    {f : List Tree → PlainReader γ} {f' : List ν → Reader m δ}
    (hx : k.Rel owed c x y (k.MakesAll s low n))
    (hf : ∀ (ps : Owed ν) d, k.row c.position.line ≤ k.row d.position.line → d.rest.length < n →
      (∀ p ∈ ps, low ≤ k.row p.1.line) →
      k.Rel (s ++ ps) d (f (ps.map Prod.fst)) (f' (ps.map Prod.snd)) R) :
    k.Rel owed c (x >>= f) (y >>= f') R := by
  refine hx.bind fun ts ws s' d _ hl _ hmakes => ?_
  obtain ⟨ps, rfl, rfl, rfl, hps, hn⟩ := hmakes
  exact hf ps d hl hn hps

end

/-- A first step that makes nothing and comes out in one way. -/
theorem Rel.after {x : PlainReader β} {f : β → PlainReader γ} {v : β} (hx : x c = .ok (v, d))
    (hy : ∀ a : k.State, k.run (y c) a = .ok ((v, d), a)) (hd : c.Reaches d)
    (h : k.Rel s d (f v) (f' v) R) : k.Rel s c (x >>= f) (y >>= f') R := by
  intro a ha
  rw [Reader.bind_ok hx, run_bind_of_ok (hy a)]
  obtain ⟨hok, herror⟩ := h a (Lawful.moves ha hd)
  exact ⟨fun u e hu => ⟨hd.trans (hok u e hu).1, (hok u e hu).2⟩,
    fun failure hfailure => ⟨hd.trans (herror failure hfailure).1, (herror failure hfailure).2⟩⟩

theorem Rel.get {f : Cursor → PlainReader γ} {f' : Cursor → Reader m δ}
    (h : k.Rel s c (f c) (f' c) R) :
    k.Rel s c ((MonadState.get : PlainReader Cursor) >>= f)
      ((MonadState.get : Reader m Cursor) >>= f') R :=
  .after rfl (fun a => Lawful.run_pure (c, c) a) (.refl c) h

theorem Rel.set {f : Unit → PlainReader γ} {f' : Unit → Reader m δ} (hd : c.Reaches d)
    (h : k.Rel s d (f ()) (f' ()) R) :
    k.Rel s c ((MonadStateOf.set d : PlainReader Unit) >>= f)
      ((MonadStateOf.set d : Reader m Unit) >>= f') R :=
  .after rfl (fun a => Lawful.run_pure ((), d) a) hd h

theorem Rel.skip {f : Unit → PlainReader γ} {f' : Unit → Reader m δ}
    (h : k.row c.position.line ≤ k.row c.skip.position.line → c.skip.rest.length ≤ c.rest.length →
      k.Rel s c.skip (f ()) (f' ()) R) :
    k.Rel s c ((modify Cursor.skip : PlainReader Unit) >>= f)
      ((modify Cursor.skip : Reader m Unit) >>= f') R :=
  .after rfl (fun a => Lawful.run_pure ((), c.skip) a) c.reaches_skip
    (h (k.row_le c.reaches_skip) c.length_skip_le)

theorem Rel.failAt {cause : SyntaxCause} {place : Cursor} (hcause : cause ≠ .nesting)
    (hplace : c.Reaches place) :
    k.Rel s c (Reader.failAt cause place) (Reader.failAt cause place : Reader m β) P := by
  intro a _
  refine ⟨fun _ _ hv => (nomatch hv), ?_⟩
  rintro _ ⟨⟩
  exact ⟨hplace, fun h => absurd h hcause, fun _ _ => run_failAt ⟨cause, place⟩ c a⟩

theorem Rel.fail {cause : SyntaxCause} (hcause : cause ≠ .nesting) :
    k.Rel s c (Reader.fail cause) (Reader.fail cause : Reader m β) P :=
  .get (.failAt hcause (.refl c))

theorem Rel.fail_bind {cause : SyntaxCause} (hcause : cause ≠ .nesting) :
    k.Rel s c ((Reader.fail cause : PlainReader α) >>= f)
      ((Reader.fail cause : Reader m β) >>= f') R :=
  Rel.bind (P := fun _ _ _ _ => False) (.fail hcause) fun _ _ _ _ _ _ _ h => h.elim

/-! ### Tokens -/

/-- The line of the next token is not before that of the cursor. -/
theorem Rel.here {f : Nat → PlainReader γ} {f' : Nat → Reader m δ}
    (h : k.row c.position.line ≤ k.row c.skip.position.line → c.skip.rest.length ≤ c.rest.length →
      k.Rel s c.skip (f c.skip.position.line) (f' c.skip.position.line) R) :
    k.Rel s c (Reader.here >>= f) (Reader.here >>= f') R := by
  refine .after rfl (fun a => ?_) c.reaches_skip (h (k.row_le c.reaches_skip) c.length_skip_le)
  rw [Reader.here, run_bind_of_ok (Lawful.run_pure ((), c.skip) a),
    run_bind_of_ok (Lawful.run_pure (c.skip, c.skip) a)]
  exact Lawful.run_pure _ a

section

variable {f : Bool → PlainReader γ} {f' : Bool → Reader m δ} {symbol word : String}

/-- A token that may come next: the text gets shorter, or nothing happens. -/
theorem Rel.accept
    (htrue : ∀ d, c.Reaches d → k.row c.position.line ≤ k.row d.position.line →
      d.rest.length < c.rest.length → k.Rel s d (f true) (f' true) R)
    (hfalse : k.Rel s c (f false) (f' false) R) :
    k.Rel s c (Reader.acceptSymbol symbol >>= f) (Reader.acceptSymbol symbol >>= f') R := by
  have hrun (a : k.State) : k.run ((Reader.acceptSymbol symbol : Reader m Bool) c) a = _ :=
    run_bind_of_ok (Lawful.run_pure (c, c) a)
  cases hpast : c.pastSymbol? symbol with
  | none =>
      refine .after (by rw [Reader.acceptSymbol, Reader.get_bind_apply, hpast]; rfl)
        (fun a => ?_) (.refl c) hfalse
      rw [hrun, hpast]
      exact Lawful.run_pure _ a
  | some next =>
      obtain ⟨hreach, hnext⟩ := Cursor.ahead_of_symbol? (Cursor.pastSymbol?_eq_some.mp hpast)
      refine .after (by rw [Reader.acceptSymbol, Reader.get_bind_apply, hpast]; rfl)
        (fun a => ?_) hreach (htrue next hreach (k.row_le hreach) hnext)
      rw [hrun, hpast]
      exact (run_bind_of_ok (Lawful.run_pure ((), next) a)).trans (Lawful.run_pure _ a)

theorem Rel.acceptWord
    (htrue : ∀ d, c.Reaches d → k.row c.position.line ≤ k.row d.position.line →
      d.rest.length < c.rest.length → k.Rel s d (f true) (f' true) R)
    (hfalse : k.Rel s c (f false) (f' false) R) :
    k.Rel s c (Reader.acceptWord word >>= f) (Reader.acceptWord word >>= f') R := by
  have hrun (a : k.State) : k.run ((Reader.acceptWord word : Reader m Bool) c) a = _ :=
    run_bind_of_ok (Lawful.run_pure (c, c) a)
  cases hpast : c.pastWord? word with
  | none =>
      refine .after (by rw [Reader.acceptWord, Reader.get_bind_apply, hpast]; rfl)
        (fun a => ?_) (.refl c) hfalse
      rw [hrun, hpast]
      exact Lawful.run_pure _ a
  | some next =>
      obtain ⟨hreach, hnext⟩ := Cursor.ahead_of_word? (Cursor.pastWord?_eq_some.mp hpast)
      refine .after (by rw [Reader.acceptWord, Reader.get_bind_apply, hpast]; rfl)
        (fun a => ?_) hreach (htrue next hreach (k.row_le hreach) hnext)
      rw [hrun, hpast]
      exact (run_bind_of_ok (Lawful.run_pure ((), next) a)).trans (Lawful.run_pure _ a)

theorem Rel.peek (h : ∀ b, k.Rel s c (f b) (f' b) R) :
    k.Rel s c (Reader.peekSymbol symbol >>= f) (Reader.peekSymbol symbol >>= f') R :=
  .after (v := (c.pastSymbol? symbol).isSome) rfl
    (fun a => (run_bind_of_ok (Lawful.run_pure (c, c) a)).trans (Lawful.run_pure _ a)) (.refl c) (h _)

end

theorem rel_expectSymbol (symbol : String) :
    k.Rel s c (Reader.expectSymbol symbol) (Reader.expectSymbol symbol : Reader m Unit)
      (Reads s c.rest.length) :=
  .accept (fun _ _ _ hd => .pure ⟨rfl, rfl, hd⟩) (.get (.failAt (by simp) c.reaches_skip))

/-- Under both sigils the same identifier is read at a place, or none is. -/
structure Identifiers (k : Pairing m ν) (c : Cursor) (sigil sigil' : Char) : Prop where
  ok : ∀ text d, (Reader.identifier sigil : PlainReader String) c = .ok (text, d) →
    (Reader.identifier sigil' : PlainReader String) c = .ok (text, d) ∧ k.Word text
  error : k.failures → ∀ failure, (Reader.identifier sigil : PlainReader String) c = .error failure →
    (Reader.identifier sigil' : PlainReader String) c = .error failure

theorem run_identifier (sigil : Char) (c : Cursor) (a : k.State) :
    k.run ((Reader.identifier sigil : Reader m String) c) a =
      ((Reader.identifier sigil : PlainReader String) c).map fun r => (r, a) := by
  cases hword : c.skip.wordHere? (isIdentifierStart sigil) with
  | none =>
      rw [Reader.identifier_of_none hword, Reader.identifier,
        run_bind_of_ok (Lawful.run_pure (c, c) a)]
      refine run_bind_of_error ?_
      rw [Reader.anyIdentifier, run_bind_of_ok (Lawful.run_pure (c, c) a), hword]
      exact run_failAt ⟨_, _⟩ c a
  | some r =>
      obtain ⟨text, next⟩ := r
      have hany : k.run ((Reader.anyIdentifier sigil : Reader m String) c) a =
          .ok ((text, next), a) := by
        rw [Reader.anyIdentifier, run_bind_of_ok (Lawful.run_pure (c, c) a), hword]
        exact (run_bind_of_ok (Lawful.run_pure ((), next) a)).trans (Lawful.run_pure _ a)
      rw [Reader.identifier_of_some hword, Reader.identifier,
        run_bind_of_ok (Lawful.run_pure (c, c) a), run_bind_of_ok hany]
      split
      · exact run_failAt ⟨_, _⟩ next a
      · exact Lawful.run_pure _ a

theorem rel_identifier {sigil sigil' : Char}
    (h : ∀ a, k.Inv s c a → k.Identifiers c sigil sigil') :
    k.Rel s c (Reader.identifier sigil) (Reader.identifier sigil' : Reader m String)
      fun v w s' d => Reads s c.rest.length v w s' d ∧ k.Word v := by
  intro a ha
  refine ⟨fun text d htext => ?_, fun failure hfailure => ?_⟩
  · obtain ⟨htext', hword⟩ := (h a ha).ok text d htext
    obtain ⟨hd, hlt⟩ := Cursor.ahead_of_identifier htext
    refine ⟨hd, text, s, a, ?_, Lawful.moves ha hd, ⟨rfl, rfl, hlt⟩, hword⟩
    rw [run_identifier, htext']
    rfl
  · obtain ⟨hplace, hcause⟩ := Cursor.place_of_identifier hfailure
    refine ⟨hplace, fun hnesting => absurd hnesting hcause, fun _ hk => ?_⟩
    rw [run_identifier, (h a ha).error hk failure hfailure]
    rfl

variable {first : Char} {rest : List Char}

theorem rel_number (hc : c.skip.rest = first :: rest) (hfirst : first.isDigit) :
    k.Rel s c Reader.number (Reader.number : Reader m Value) (Reads s c.rest.length) := by
  have hreach (n : Nat) : c.Reaches (c.skip.advance n) :=
    c.reaches_skip.trans (Cursor.reaches_advance n _)
  have hadvance {n : Nat} (hn : 0 < n) : (c.skip.advance n).rest.length < c.rest.length :=
    Nat.lt_of_lt_of_le (Cursor.length_advance_lt hn (by simp [hc])) c.length_skip_le
  refine .get ?_
  dsimp only
  cases hexDigits? c.skip.rest with
  | some digits =>
      exact .cond (fun _ => .set (hreach _) (.pure ⟨rfl, rfl, hadvance (Nat.succ_pos _)⟩))
        fun _ => .failAt (by simp) c.reaches_skip
  | none =>
      refine .set (hreach _) (.pure ⟨rfl, rfl, hadvance ?_⟩)
      have hwhole : (DecimalLiteral.scan c.skip.rest).whole =
          c.skip.rest.takeWhile Char.isDigit := rfl
      rw [DecimalLiteral.length, hwhole, hc, List.takeWhile_cons, if_pos hfirst, List.length_cons]
      omega

theorem rel_string (quote : Char) (hc : c.skip.rest = first :: rest) :
    k.Rel s c (Reader.string quote) (Reader.string quote : Reader m Value)
      (Reads s c.rest.length) := by
  refine .get ?_
  dsimp only
  cases hread : readQuoted quote [] (c.skip.advance 1).position (c.skip.rest.drop 1) with
  | none => exact .failAt (by simp) c.reaches_skip
  | some r =>
      rw [← Cursor.rest_advance] at hread
      have hread := Cursor.reaches_readQuoted hread
      have hquote := Cursor.length_advance_lt Nat.one_pos (c := c.skip) (by simp [hc])
      have hlength : r.2.rest.length ≤ (c.skip.advance 1).rest.length := hread.length_le
      have hskip := c.length_skip_le
      exact .set ((c.reaches_skip.trans (Cursor.reaches_advance 1 _)).trans hread)
        (.pure ⟨rfl, rfl, by omega⟩)

/-! ### Nodes -/

variable {low n line : Nat}

theorem Rel.name {text : String} (htext : k.Word text) (hlow : low ≤ k.row line)
    (hline : k.row line ≤ k.row c.position.line) (hn : c.rest.length < n) :
    k.Rel s c (Nodes.name text line) (Nodes.name text line : Reader m ν) (k.Makes s low n) :=
  .make rfl (fun _ ha => Lawful.name ha htext hline) hlow hn

theorem Rel.var {text : String} (htext : k.Word text) (hlow : low ≤ k.row line)
    (hline : k.row line ≤ k.row c.position.line) (hn : c.rest.length < n) :
    k.Rel s c (Nodes.var text line) (Nodes.var text line : Reader m ν) (k.Makes s low n) :=
  .make rfl (fun _ ha => Lawful.var ha htext hline) hlow hn

theorem Rel.literal (value : Value) (hlow : low ≤ k.row line) (hline : k.row line ≤ k.row c.position.line)
    (hn : c.rest.length < n) :
    k.Rel s c (Nodes.literal value line) (Nodes.literal value line : Reader m ν) (k.Makes s low n) :=
  .make rfl (fun _ ha => Lawful.literal value ha hline) hlow hn

theorem Rel.fixed {kind : FixedKind} {owed : Owed ν} (slots : List (Option (Tree × ν)))
    (howed : owed = s ++ slots.flatMap Option.toList) (harity : slots.length = kind.arity)
    (hslots : ∀ o ∈ slots, k.Behind (k.row line) o) (hlow : low ≤ k.row line)
    (hline : k.row line ≤ k.row c.position.line) (hn : c.rest.length < n) :
    k.Rel owed c (Nodes.fixed kind (slots.map (Option.map Prod.fst)) line)
      (Nodes.fixed kind (slots.map (Option.map Prod.snd)) line : Reader m ν) (k.Makes s low n) :=
  .make rfl (fun _ ha => Lawful.fixed (howed ▸ ha) harity hslots hline) hlow hn

theorem Rel.decl {kind : DeclKind} {name : String} {flags : Nat} {owed : Owed ν}
    (slots : List (Option (Tree × ν))) (howed : owed = s ++ (swapLast slots).flatMap Option.toList)
    (harity : slots.length = kind.arity) (hslots : ∀ o ∈ slots, k.Behind (k.row line) o)
    (hlow : low ≤ k.row line) (hline : k.row line ≤ k.row c.position.line) (hn : c.rest.length < n) :
    k.Rel owed c (Nodes.decl kind name flags (slots.map (Option.map Prod.fst)) line)
      (Nodes.decl kind name flags (slots.map (Option.map Prod.snd)) line : Reader m ν)
      (k.Makes s low n) :=
  .make rfl (fun _ ha => Lawful.decl name flags (howed ▸ ha) harity hslots hline) hlow hn

theorem Rel.list {kind : ListKind} {owed : Owed ν} (items : Owed ν) (howed : owed = s ++ items)
    (hitems : ∀ p ∈ items, k.row line ≤ k.row p.1.line)
    (hlow : low ≤ k.row line) (hline : k.row line ≤ k.row c.position.line) (hn : c.rest.length < n) :
    k.Rel owed c (Nodes.list kind (items.map Prod.fst) line)
      (Nodes.list kind (items.map Prod.snd) line : Reader m ν) (k.Makes s low n) :=
  .make rfl (fun _ ha => Lawful.list kind (howed ▸ ha) hitems hline) hlow hn

/-- A node that is owed is on no later line than the cursor. -/
theorem Rel.of_mem {p : Tree × ν} (hp : p ∈ s)
    (h : k.row p.1.line ≤ k.row c.position.line → k.Rel s c x y P) : k.Rel s c x y P :=
  .of_inv fun _ ha => h (Lawful.row_le_of_mem ha hp)

/-- The line of a node that is owed. -/
theorem Rel.lineOf {f : Nat → PlainReader γ} {f' : Nat → Reader m δ} {t : Tree} {w : ν}
    (hw : (t, w) ∈ s)
    (h : k.row t.line ≤ k.row c.position.line → k.Rel s c (f t.line) (f' t.line) R) :
    k.Rel s c (Nodes.lineOf t >>= f) ((Nodes.lineOf w : Reader m Nat) >>= f') R := by
  intro a ha
  have hrun : k.run (((Nodes.lineOf w : Reader m Nat) >>= f') c) a = k.run (f' t.line c) a :=
    run_bind_of_ok (Lawful.lineOf ha hw)
  rw [hrun]
  exact h (Lawful.row_le_of_mem ha hw) a ha

/-- A part that may be missing, made because it is there. -/
theorem Rel.some {x : PlainReader Tree} {y : Reader m ν} {owed : Owed ν}
    (h : k.Rel owed c x y (k.Makes s low n)) :
    k.Rel owed c (Option.some <$> x) (Option.some <$> y) (k.MakesOne? s low n) := by
  have hbind : k.Rel owed c (x >>= fun t => Pure.pure (Option.some t))
      (y >>= fun w => Pure.pure (Option.some w)) (k.MakesOne? s low n) := by
    refine h.bind fun t w s' d _ _ _ hmakes => .pure ?_
    obtain ⟨hs, hlow, hn⟩ := hmakes
    exact ⟨Option.some (t, w), rfl, rfl, hs, behind_some.mpr hlow, hn⟩
  exact hbind

/-- A part that a word announces, or none, with the same rest behind it. -/
theorem Rel.orNone {x : PlainReader (Option Tree)} {y : Reader m (Option ν)} {word : String}
    {f : Option Tree → PlainReader γ} {f' : Option ν → Reader m δ}
    (hx : ∀ d, k.row c.position.line ≤ k.row d.position.line → d.rest.length < c.rest.length →
      k.Rel s d x y (k.MakesOne? s low n)) (hn : c.rest.length < n)
    (hf : ∀ (p : Option (Tree × ν)) d, k.row c.position.line ≤ k.row d.position.line →
      d.rest.length < n → k.Behind low p →
      k.Rel (s ++ p.toList) d (f (p.map Prod.fst)) (f' (p.map Prod.snd)) R) :
    k.Rel s c
      (Reader.acceptWord word >>= fun b => if b = true then x >>= f else Pure.pure Option.none >>= f)
      (Reader.acceptWord word >>= fun b => if b = true then y >>= f' else Pure.pure Option.none >>= f')
      R := by
  refine .acceptWord (fun d _ hl hd => (hx d hl hd).node? fun p e hl₁ he hp =>
    hf p e (Nat.le_trans hl hl₁) he hp) (.pure_bind ?_)
  simpa using hf Option.none c (Nat.le_refl _) hn (by simp)

end Pairing

end SnippetRewrite
