import SnippetRewrite.Proofs.Parse.Beginning
import SnippetRewrite.Proofs.Parse.RoundTrip
import SnippetRewrite.Proofs.Parse.Sigil

/-!
Programs under another sigil. A reader that admits more identifiers could take another branch where
the first one fails to read an identifier and goes on. There are two such places. A reference that
fails has no other branch. The look ahead behind the word `function` has one, an expression, but that
succeeds only if a parenthesis follows, and no parenthesis begins an identifier. So whatever the
default sigil accepts is read in the same way with any valid one.
-/

namespace SnippetRewrite

namespace Reader

variable {sigil sigil' : Char}

/-- With more characters to begin them, at least the same identifiers are read. -/
theorem identifier_widened (h : ∀ ch, isIdentifierStart sigil ch = true →
    isIdentifierStart sigil' ch = true) {c d : Cursor} {text : String}
    (hid : (identifier sigil : PlainReader String) c = .ok (text, d)) :
    (identifier sigil' : PlainReader String) c = .ok (text, d) := by
  cases hword : c.skip.wordHere? (isIdentifierStart sigil) with
  | none =>
      rw [identifier_of_none hword] at hid
      cases hid
  | some r =>
      obtain ⟨word, next⟩ := r
      obtain ⟨first, rest, hrest, hfirst, htext, hnext⟩ := wordHere?_eq_some.mp hword
      rw [identifier_of_some hword] at hid
      rw [identifier_of_some
        (wordHere?_eq_some.mpr ⟨first, rest, hrest, h first hfirst, htext, hnext⟩)]
      exact hid

end Reader

namespace Grammar

open Reader

variable {sigil sigil' : Char} {c next : Cursor} {bound depth : Nat}

/-- No identifier is read where one of these begins a parenthesis. -/
theorem symbol?_of_identifier {g : TreeGrammar} (hparen : isIdentifierStart g.sigil '(' = false)
    (hid : g.peekIdentifier c = true) (d : Cursor) : c.symbol? ≠ some ("(", d) := by
  intro hsymbol
  cases h : (Reader.identifier g.sigil : PlainReader String) c with
  | error failure => simp [peekIdentifier, h, Except.isOk, Except.toBool] at hid
  | ok r =>
      obtain ⟨first, rest, hrest, hfirst, -, -⟩ := wordHere?_eq_some.mp (identifier_ok (g := g) h)
      have hnext : nextSymbol? c.rest = some ("(", d.rest) := by rw [← symbol?_eq, hsymbol]; rfl
      obtain rfl : '(' = first := Option.some.inj (head_nextSymbol? hrest hnext)
      rw [hparen] at hfirst
      cases hfirst

/-- The look ahead behind the word `function` tells more only where the statement cannot be read. -/
theorem peekIdentifier_widened {bound' depth' : Nat}
    (h : ∀ ch, isIdentifierStart sigil ch = true → isIdentifierStart sigil' ch = true)
    (hparen : isIdentifierStart sigil' '(' = false) (hword : c.word? = some ("function", next)) :
    (ofDepth sigil' bound' depth' : TreeGrammar).peekIdentifier next =
        (ofDepth sigil bound depth : TreeGrammar).peekIdentifier next ∨
      (ofDepth sigil bound depth : TreeGrammar).peekIdentifier next = false ∧
        ∀ r, (ofDepth sigil bound depth : TreeGrammar).expressionStatement c ≠ .ok r := by
  cases hx : (Reader.identifier sigil : PlainReader String) next with
  | ok r =>
      have hx' : (Reader.identifier sigil' : PlainReader String) next = .ok r := identifier_widened h hx
      exact .inl (by rw [peekIdentifier, peekIdentifier, sigil_ofDepth, sigil_ofDepth, hx, hx'])
  | error failure =>
      have hpeek : (ofDepth sigil bound depth : TreeGrammar).peekIdentifier next = false := by
        rw [peekIdentifier, sigil_ofDepth, hx]
        rfl
      cases hpeek' : (ofDepth sigil' bound' depth' : TreeGrammar).peekIdentifier next with
      | false => exact .inl hpeek.symm
      | true =>
          refine .inr ⟨hpeek, fun r hr => ?_⟩
          obtain ⟨v, d, hv, -⟩ := of_bind_ok hr
          cases depth with
          | zero => cases hv
          | succ depth =>
              obtain ⟨e, he⟩ := assignment_needs opensClosure_skip
                (unary_opensClosure _) c (v, d) hv next hword
              exact symbol?_of_identifier (by rwa [sigil_ofDepth]) hpeek' e he

/-- With more characters to begin identifiers, the same words are read where failures do not count. -/
theorem sameWords_widened
    (h : ∀ ch, isIdentifierStart sigil ch = true → isIdentifierStart sigil' ch = true)
    (hparen : isIdentifierStart sigil' '(' = false) (bound : Nat) :
    SameWords (Following.nothing.pairing False 0) sigil sigil' bound where
  identifiers _ _ _ _ := ⟨fun _ _ hid => ⟨identifier_widened h hid, trivial⟩, False.elim⟩
  lookahead _ _ _ _ _ _ _ _ hword :=
    (peekIdentifier_widened h hparen hword).imp_right fun hnone => ⟨hnone.1, id, hnone.2⟩

end Grammar

/-- A sigil that begins no parenthesis only adds identifiers to those of the default one. -/
theorem readProgram_of_default {sigil : Char} (hsigil : sigil ≠ '(') {source : List Char} {t : Tree}
    (h : readProgram defaultSigil source = .ok t) : readProgram sigil source = .ok t := by
  have hstart (ch : Char) (hch : isIdentifierStart defaultSigil ch = true) :
      isIdentifierStart sigil ch = true := by
    simp only [isIdentifierStart, Bool.or_eq_true, decide_eq_true_eq] at hch ⊢
    exact .inl (hch.elim id .inr)
  have hparen : isIdentifierStart sigil '(' = false := by
    simp [isIdentifierStart, hsigil.symm]
    decide
  obtain ⟨d, hv⟩ := program_of_readProgram h
  obtain ⟨hv', -⟩ := (Grammar.program_of_paired (Grammar.sameWords_widened hstart hparen _) trivial
    (Nat.le_refl _)).1 t d hv
  rw [readProgram, hv']
  rfl

/-- A valid sigil does not change what an ordinary program means: with it, too, the program is
accepted, and becomes the same arena. -/
theorem parseUnit_of_default {sigil : Char} (hsigil : isValidSigil sigil = true)
    {source origin : String} {a : Arena} (h : parseUnit defaultSigil source origin = .ok a) :
    parseUnit sigil source origin = .ok a := by
  have hne : sigil ≠ '(' := by
    rintro rfl
    revert hsigil
    decide
  rw [parseUnit_eq] at h ⊢
  cases hread : readProgram defaultSigil source.toList with
  | error failure =>
      rw [hread] at h
      cases h
  | ok t =>
      rw [hread] at h
      rw [readProgram_of_default hne hread]
      exact h

/-- The other sigil may stand in strings and comments. -/
theorem parseUnit_at : ∃ a, parseUnit defaultSigil "f('@a', $b); // @c" "unit" = .ok a ∧
    parseUnit '@' "f('@a', $b); // @c" "unit" = .ok a := by
  have hread : readProgram defaultSigil "f('@a', $b); // @c".toList = .ok
      (.list .stmtList [.fixed .call [some (.name "f" 1), some (.list .argList
        [.literal (.str "@a") 1, .var "$b" 1] 1)] 1] 1) := readProgram_of_toOption (by decide +kernel)
  obtain ⟨a, -, hparse, -, -⟩ := Arena.exists_parseUnit hread "unit"
  exact ⟨a, hparse, parseUnit_of_default (by decide) hparse⟩

end SnippetRewrite
