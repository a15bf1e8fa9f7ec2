import Mathlib.Algebra.Ring.Int.Defs
import SnippetRewrite.Parse.Literal
import SnippetRewrite.Proofs.Parse.Token

/-!
What the characters of a text are part of: code, comments or strings. The place of a character follows
from the one before it and the place of that, without a look ahead, so places are a fold over the
text, and brackets can be counted by place. Beside the definitions stands what a text read from its
start up to a cursor contributes to these counts.
-/

namespace SnippetRewrite

/-- What the next character of a text is part of. -/
inductive Place where
  | code
  /-- Code behind a slash, with which a comment may have begun. -/
  | slash
  | lineComment
  | blockComment
  /-- A block comment behind a star, with which it may end. -/
  | star
  | string (quote : Char)
  /-- A string behind a backslash. -/
  | escape (quote : Char)
deriving DecidableEq, Repr

def bracketWeight (c : Char) : Int :=
  if c = '\x7b' ∨ c = '(' ∨ c = '[' then 1
  else if c = '\x7d' ∨ c = ')' ∨ c = ']' then -1
  else 0

namespace Place

variable {p q : Place} {c : Char} {cs ds es : List Char} {k l : Int}

def isCode : Place → Bool
  | code | slash => true
  | _ => false

def isComment : Place → Bool
  | lineComment | blockComment | star => true
  | _ => false

def quote? : Place → Option Char
  | string quote | escape quote => some quote
  | _ => none

def behind (c : Char) : Place :=
  if c = '/' then slash
  else if c = '#' then lineComment
  else if c = '"' ∨ c = '\'' then string c
  else code

def next : Place → Char → Place
  | code, c => behind c
  | slash, c => if c = '/' then lineComment else if c = '*' then blockComment else behind c
  | lineComment, c => if c = '\n' then code else lineComment
  | blockComment, c => if c = '*' then star else blockComment
  | star, c => if c = '/' then code else if c = '*' then star else blockComment
  | string quote, c => if c = quote then code else if c = '\\' then escape quote else string quote
  | escape quote, _ => string quote

def after (p : Place) (cs : List Char) : Place :=
  cs.foldl next p

/-- The characters of a text with their places. -/
def placed : Place → List Char → List (Place × Char)
  | _, [] => []
  | p, c :: cs => (p, c) :: placed (p.next c) cs

/-- Opening brackets less closing ones at places of a kind. -/
def depthAt (kind : Place → Bool) (p : Place) (cs : List Char) : Int :=
  ((placed p cs).map fun (q, c) => if kind q then bracketWeight c else 0).sum

@[simp] theorem after_nil (p : Place) : p.after [] = p := rfl

@[simp] theorem after_cons (p : Place) (c : Char) (cs : List Char) :
    p.after (c :: cs) = (p.next c).after cs := rfl

theorem after_append (p : Place) (cs ds : List Char) :
    p.after (cs ++ ds) = (p.after cs).after ds := List.foldl_append

theorem placed_append (p : Place) (cs ds : List Char) :
    p.placed (cs ++ ds) = p.placed cs ++ (p.after cs).placed ds := by
  induction cs generalizing p with
  | nil => rfl
  | cons c cs ih => simp [placed, ih]

section

variable (kind : Place → Bool)

@[simp] theorem depthAt_nil (p : Place) : depthAt kind p [] = 0 := rfl

@[simp] theorem depthAt_cons (p : Place) (c : Char) (cs : List Char) :
    depthAt kind p (c :: cs) =
      (if kind p then bracketWeight c else 0) + depthAt kind (p.next c) cs := by
  simp [depthAt, placed]

theorem depthAt_append (p : Place) (cs ds : List Char) :
    depthAt kind p (cs ++ ds) = depthAt kind p cs + depthAt kind (p.after cs) ds := by
  simp [depthAt, placed_append]

end

/-! ### Characters of code -/

/-- A character that neither begins a comment or a string nor is a bracket. -/
def isPlain (c : Char) : Bool :=
  behind c = code && bracketWeight c = 0

def specialChars : List Char :=
  ['/', '#', '"', '\'', '\x7b', '\x7d', '(', ')', '[', ']']

theorem isPlain_of_notMem (h : c ∉ specialChars) : isPlain c = true := by
  simp only [specialChars, List.mem_cons, List.not_mem_nil, or_false, not_or] at h
  simp [isPlain, behind, bracketWeight, h]

/-- A character of a class without special ones is plain. -/
theorem isPlain_of {p : Char → Bool} (h : specialChars.any p = false) (hc : p c = true) :
    isPlain c = true := by
  refine isPlain_of_notMem fun hmem => ?_
  rw [List.any_eq_false] at h
  exact h c hmem hc

theorem isPlain_of_isDigit (h : c.isDigit = true) : isPlain c = true := isPlain_of (by decide) h

theorem isPlain_of_isHexDigit (h : isHexDigit c = true) : isPlain c = true := isPlain_of (by decide) h

theorem isPlain_of_isWordChar (h : isWordChar c = true) : isPlain c = true := isPlain_of (by decide) h

/-- An identifier under a valid sigil begins with a plain character. -/
theorem isPlain_of_isIdentifierStart {sigil : Char} (hsigil : isValidSigil sigil = true)
    (h : isIdentifierStart sigil c = true) : isPlain c = true := by
  have hreserved : ∀ d ∈ specialChars, d ∈ reservedChars := List.all_iff_forall_prop.mp (by decide)
  simp only [isIdentifierStart, Bool.or_eq_true, decide_eq_true_eq] at h
  obtain (h | rfl) | rfl := h
  · exact isPlain_of (by decide) h
  · rfl
  · refine isPlain_of_notMem fun hmem => ?_
    simp [isValidSigil, hreserved c hmem] at hsigil

end Place

/-! ### Parts of a text -/

/-- A text, begun at a place, is open in the same way as a shorter one begun in code, with so many
more brackets to close in the latter. -/
structure Leads (p : Place) (k : Int) (cs ds : List Char) : Prop where
  quote?_eq : (p.after cs).quote? = (Place.code.after ds).quote?
  depth_eq : Place.depthAt Place.isCode p cs = k + Place.depthAt Place.isCode .code ds

namespace Leads

open Place

variable {p : Place} {c : Char} {cs ds es : List Char} {k l : Int}

theorem refl (cs : List Char) : Leads .code 0 cs cs :=
  ⟨rfl, (Int.zero_add _).symm⟩

theorem trans (h : Leads p k cs ds) (h' : Leads .code l ds es) : Leads p (k + l) cs es :=
  ⟨h.quote?_eq.trans h'.quote?_eq, by rw [h.depth_eq, h'.depth_eq, Int.add_assoc]⟩

/-- A character that is no bracket of code. -/
theorem step (h : Leads (p.next c) k cs ds) (hc : (if p.isCode then bracketWeight c else 0) = 0) :
    Leads p k (c :: cs) ds :=
  ⟨h.quote?_eq, by rw [depthAt_cons, hc, Int.zero_add, h.depth_eq]⟩

theorem plain (hc : isPlain c = true) (h : Leads .code k cs ds) : Leads .code k (c :: cs) ds := by
  obtain ⟨hnext, hweight⟩ : behind c = .code ∧ bracketWeight c = 0 := by simpa [isPlain] using hc
  exact step (by rwa [Place.next, hnext]) (by simpa using fun _ => hweight)

theorem drop {n : Nat} (h : ∀ c ∈ cs.take n, isPlain c = true) : Leads .code 0 cs (cs.drop n) := by
  induction n generalizing cs with
  | zero => exact refl cs
  | succ n ih =>
      cases cs with
      | nil => exact refl []
      | cons c cs =>
          rw [List.take_succ_cons, List.forall_mem_cons] at h
          exact plain h.1 (ih h.2)

/-- Places from which the next character leads to the same place. -/
theorem of_next_eq (q : Place) (hcode : p.isCode = q.isCode) (hquote : p.quote? = q.quote?)
    (hnext : ∀ c rest, cs = c :: rest → p.next c = q.next c) (h : Leads q k cs ds) :
    Leads p k cs ds := by
  obtain ⟨hopen, hdepth⟩ := h
  cases cs with
  | nil => exact ⟨hquote.trans hopen, hdepth⟩
  | cons c cs =>
      refine ⟨?_, ?_⟩
      · rw [after_cons, hnext c cs rfl]
        exact hopen
      · rw [depthAt_cons, hnext c cs rfl, hcode]
        rwa [depthAt_cons] at hdepth

end Leads

/-! ### Separators and comments -/

/-- The place of a text in front of which separators and comments are skipped. -/
def Trivia.place : Trivia → Place
  | .between => .code
  | .lineComment => .lineComment
  | .blockComment => .blockComment

theorem leads_skipTrivia (m : Trivia) (p : Position) (cs : List Char) :
    Leads m.place 0 cs (skipTrivia m p cs).rest := by
  fun_induction skipTrivia m p cs with
  | case1 m => cases m <;> exact ⟨rfl, rfl⟩
  | case2 p rest ih => exact .step (.step ih rfl) rfl
  | case3 p rest h ih => exact .step (.step ih rfl) rfl
  | case4 => exact .refl _
  | case5 p c rest _ _ hsep ih =>
      exact .plain (Place.isPlain_of (p := isSeparator) (by decide) hsep) ih
  | case6 p rest _ _ _ ih => exact .step ih rfl
  | case7 => exact .refl _
  | case8 p c rest ih =>
      refine .step ?_ rfl
      by_cases hc : c = '\n' <;> simpa [Trivia.place, Place.next, hc] using ih
  | case9 p rest ih => exact .step (.step ih rfl) rfl
  | case10 p c rest h ih =>
      refine .step ?_ rfl
      simp only [Trivia.place, Place.next] at ih ⊢
      split
      · -- a star behind which no slash comes
        rename_i hstar
        refine .of_next_eq .blockComment rfl rfl (fun d rest' hrest => ?_) ih
        have hd : d ≠ '/' := fun hd => h rest' hstar (hd ▸ hrest)
        simp [Place.next, hd]
      · exact ih

theorem leads_skip (c : Cursor) : Leads .code 0 c.rest c.skip.rest :=
  leads_skipTrivia .between c.position c.rest

end SnippetRewrite
