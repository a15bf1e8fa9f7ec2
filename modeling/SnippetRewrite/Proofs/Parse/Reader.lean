import SnippetRewrite.Proofs.Outcome
import SnippetRewrite.Parse.Literal
import SnippetRewrite.Parse.Nodes

/-!
Readers step by step. A reader in `do` notation runs its first step and hands the value and the
cursor on, so that what it yields follows from what its steps yield.
-/

namespace SnippetRewrite

namespace Reader

variable {α β : Type} {x : PlainReader α} {f : α → PlainReader β} {c d e : Cursor} {v : α} {w : β}

theorem bind_apply (x : PlainReader α) (f : α → PlainReader β) (c : Cursor) :
    (x >>= f) c = x c >>= fun r => f r.1 r.2 := rfl

theorem bind_ok (h : x c = .ok (v, d)) : (x >>= f) c = f v d := by
  rw [bind_apply, h]
  rfl

theorem bind_error {failure : SyntaxFailure} (h : x c = .error failure) :
    (x >>= f) c = .error failure := by
  rw [bind_apply, h]
  rfl

theorem of_bind_ok (h : (x >>= f) c = .ok (w, e)) :
    ∃ v d, x c = .ok (v, d) ∧ f v d = .ok (w, e) := by
  obtain ⟨⟨v, d⟩, hx, hf⟩ := bind_eq_ok.mp h
  exact ⟨v, d, hx, hf⟩

@[simp] theorem pure_apply (v : α) (c : Cursor) : (pure v : PlainReader α) c = .ok (v, c) := rfl

@[simp] theorem get_bind_apply (f : Cursor → PlainReader β) (c : Cursor) :
    ((get : PlainReader Cursor) >>= f) c = f c c := rfl

@[simp] theorem set_bind_apply (next : Cursor) (f : Unit → PlainReader β) (c : Cursor) :
    ((set next : PlainReader Unit) >>= f) c = f () next := rfl

@[simp] theorem modify_bind_apply (g : Cursor → Cursor) (f : Unit → PlainReader β) (c : Cursor) :
    ((modify g : PlainReader Unit) >>= f) c = f () (g c) := rfl

theorem here_bind_apply (f : Nat → PlainReader β) (c : Cursor) :
    (here >>= f) c = f c.skip.position.line c.skip := rfl

@[simp] theorem failAt_apply (cause : SyntaxCause) (place c : Cursor) :
    (failAt cause place : PlainReader α) c = .error ⟨cause, place⟩ := rfl

@[simp] theorem fail_apply (cause : SyntaxCause) (c : Cursor) :
    (fail cause : PlainReader α) c = .error ⟨cause, c⟩ := rfl

/-! ### Nodes that are trees -/

@[simp] theorem fixed_tree (kind : FixedKind) (slots : List (Option Tree)) (line : Nat) :
    (Nodes.fixed kind slots line : PlainReader Tree) = pure (.fixed kind slots line) := rfl

@[simp] theorem lineOf_tree (t : Tree) : (Nodes.lineOf t : PlainReader Nat) = pure t.line := rfl

/-! ### What readers yield -/

/-- Whatever a reader hands back at one place, with the cursor behind it, has a property. -/
def YieldsFrom (c : Cursor) (x : PlainReader α) (Q : α → Cursor → Prop) : Prop :=
  ∀ v d, x c = .ok (v, d) → Q v d

theorem YieldsFrom.bind {P : α → Cursor → Prop} {Q : β → Cursor → Prop} (hx : YieldsFrom c x P)
    (hf : ∀ v d, P v d → YieldsFrom d (f v) Q) : YieldsFrom c (x >>= f) Q := by
  intro w e h
  obtain ⟨v, d, hv, hw⟩ := of_bind_ok h
  exact hf v d (hx v d hv) w e hw

theorem YieldsFrom.get {f : Cursor → PlainReader β} {Q : β → Cursor → Prop}
    (h : YieldsFrom c (f c) Q) : YieldsFrom c ((MonadState.get : PlainReader Cursor) >>= f) Q := h

end Reader

end SnippetRewrite
