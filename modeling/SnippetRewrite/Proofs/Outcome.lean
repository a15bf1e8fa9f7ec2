import SnippetRewrite.Arena.Basic

/-!
Sequences of steps that may fail, and of edits: what the first step gives decides how the sequence
goes on.
-/

namespace SnippetRewrite

variable {ε α β : Type}

@[simp] theorem ok_bind (v : α) (f : α → Except ε β) : (Except.ok v >>= f) = f v := rfl

@[simp] theorem error_bind (e : ε) (f : α → Except ε β) : (Except.error e >>= f) = .error e := rfl

@[simp] theorem pure_eq_ok (v : α) : (pure v : Except ε α) = .ok v := rfl

theorem bind_eq_ok {x : Except ε α} {f : α → Except ε β} {r : β} :
    x >>= f = .ok r ↔ ∃ v, x = .ok v ∧ f v = .ok r := by
  cases x <;> simp

namespace Edit

theorem bind_ok {x : Edit α} {f : α → Edit β} {a b : Arena} {v : α} (h : x a = .ok v b) :
    (x >>= f) a = f v b := by
  simp [bind, EStateM.bind, h]

theorem bind_error {x : Edit α} {f : α → Edit β} {a b : Arena} {e : ArenaError}
    (h : x a = .error e b) : (x >>= f) a = .error e b := by
  simp [bind, EStateM.bind, h]

theorem pure_ok (v : α) (a : Arena) : (pure v : Edit α) a = .ok v a := rfl

theorem get_bind (f : Arena → Edit α) (a : Arena) : ((get : Edit Arena) >>= f) a = f a a := rfl

theorem modify_ok (g : Arena → Arena) (a : Arena) : (modify g : Edit Unit) a = .ok () (g a) := rfl

theorem modify_bind (g : Arena → Arena) (f : Unit → Edit α) (a : Arena) :
    ((modify g : Edit Unit) >>= f) a = f () (g a) := rfl

end Edit

end SnippetRewrite
