import SnippetRewrite.Parse.Expression
import SnippetRewrite.Proofs.Parse.Places

/-!
What tokens contribute to the count of brackets. No token but a bracket opens or closes one, and every
token, a string too, ends in code. The one token whose meaning depends on what comes behind it is the
slash, which with a star begins a comment.
-/

namespace SnippetRewrite

open Place (isPlain)

/-! ### Tokens -/

def symbolWeight (symbol : String) : Int :=
  Place.depthAt Place.isCode .code symbol.toList

variable {c d : Cursor} {symbol word text : String} {sigil : Char}

theorem Leads.append {text cs : List Char} (h : Place.code.after text = .code) :
    Leads .code (Place.depthAt Place.isCode .code text) (text ++ cs) cs :=
  ⟨by rw [Place.after_append, h], by rw [Place.depthAt_append, h]⟩

/-- A symbol, unless it is a slash, leaves the text in code. -/
theorem leads_symbol? (h : c.symbol? = some (symbol, d)) (hslash : symbol ≠ "/") :
    Leads .code (symbolWeight symbol) c.rest d.rest := by
  have hafter : ∀ s ∈ symbols, s ≠ "/" → Place.code.after s.toList = .code := by decide
  obtain ⟨hmem, hrest⟩ := mem_symbols_of_symbol? h
  rw [← Int.zero_add (symbolWeight symbol)]
  exact (leads_skip c).trans (hrest ▸ Leads.append (hafter symbol hmem hslash))

/-- So does a slash with no star behind it. -/
theorem leads_slash (h : c.symbol? = some ("/", d)) (hstar : ∀ rest, d.rest ≠ '*' :: rest) :
    Leads .code 0 c.rest d.rest := by
  have hrest : c.skip.rest = '/' :: d.rest := (mem_symbols_of_symbol? h).2
  -- behind a second slash would be a comment, which would have been skipped
  have hslash (rest : List Char) : d.rest ≠ '/' :: rest := by
    intro hd
    have hskip : c.skip.skip.rest = c.skip.rest := by rw [skip_skip]
    rw [rest_skip, hrest, hd] at hskip
    have hlength := length_skipTrivia_le .lineComment ((Position.start.past '/').past '/') rest
    have hcomment : (skipTrivia .lineComment ((Position.start.past '/').past '/') rest).rest =
        '/' :: '/' :: rest := hskip
    rw [hcomment, List.length_cons, List.length_cons] at hlength
    omega
  have hbehind : Leads .slash 0 d.rest d.rest := by
    refine .of_next_eq .code rfl rfl (fun ch rest hd => ?_) (.refl _)
    have hch : ch ≠ '/' ∧ ch ≠ '*' :=
      ⟨fun hc => hslash rest (hc ▸ hd), fun hc => hstar rest (hc ▸ hd)⟩
    simp [Place.next, hch]
  have hskipped : Leads .code 0 c.skip.rest d.rest := hrest ▸ .step hbehind rfl
  exact (leads_skip c).trans hskipped

theorem leads_takeWhile {p : Char → Bool} (hp : ∀ ch, p ch = true → isPlain ch = true)
    (cs : List Char) : Leads .code 0 cs (cs.drop (cs.takeWhile p).length) := by
  refine .drop fun ch hch => ?_
  rw [← List.prefix_iff_eq_take.mp (List.takeWhile_prefix p)] at hch
  exact hp ch (List.all_eq_true.mp List.all_takeWhile ch hch)

theorem leads_wordHere? {isStart : Char → Bool} (hstart : ∀ ch, isStart ch = true → isPlain ch = true)
    (h : c.wordHere? isStart = some (text, d)) : Leads .code 0 c.rest d.rest := by
  obtain ⟨first, rest, hrest, hfirst, -, rfl⟩ := wordHere?_eq_some.mp h
  rw [Cursor.rest_advance, hrest, List.drop_succ_cons]
  exact .plain (hstart first hfirst) (leads_takeWhile (fun _ => Place.isPlain_of_isWordChar) rest)

theorem leads_word? (h : c.word? = some (word, d)) : Leads .code 0 c.rest d.rest :=
  (leads_skip c).trans (leads_wordHere? (fun _ => Place.isPlain_of (by decide)) h)

/-- A text of plain characters that comes next. -/
theorem leads_past? {start : List Char} (hplain : start.all isPlain = true)
    (h : c.past? start = some d) : Leads .code 0 c.rest d.rest := by
  have hafter := past?_eq start c
  rw [h] at hafter
  have hrest : c.rest = start ++ d.rest := eq_append_of_afterStart hafter.symm
  rw [show d.rest = c.rest.drop start.length by rw [hrest, List.drop_left]]
  refine .drop fun ch hch => ?_
  rw [hrest, List.take_left] at hch
  exact List.all_eq_true.mp hplain ch hch

/-! ### Literals -/

theorem leads_digits (cs : List Char) :
    Leads .code 0 cs (cs.drop (cs.takeWhile Char.isDigit).length) :=
  leads_takeWhile (fun _ => Place.isPlain_of_isDigit) cs

theorem leads_fraction (cs : List Char) : Leads .code 0 cs
    (cs.drop (if (fractionDigits cs).isEmpty then 0 else (fractionDigits cs).length + 1)) := by
  split
  · exact .refl cs
  · rename_i hfraction
    unfold fractionDigits at hfraction ⊢
    split at hfraction
    · exact .plain rfl (leads_digits _)
    · exact absurd rfl hfraction

theorem leads_exponent (cs : List Char) : Leads .code 0 cs
    (cs.drop (if (exponentDigits cs).isEmpty then 0 else (exponentDigits cs).length + 1)) := by
  split
  · exact .refl cs
  · rename_i hexponent
    unfold exponentDigits at hexponent ⊢
    split at hexponent
    · rename_i e rest
      split at hexponent
      · rename_i he
        have hplain : isPlain e = true := by rcases he with rfl | rfl <;> rfl
        rw [if_pos he]
        split at hexponent
        · rename_i sign digits
          refine .plain hplain ?_
          split at hexponent
          · rename_i hsign
            rw [if_pos hsign]
            have hplain : isPlain sign = true := by rcases hsign with rfl | rfl <;> rfl
            split at hexponent
            · exact absurd rfl hexponent
            · exact .plain hplain (leads_digits digits)
          · rename_i hsign
            rw [if_neg hsign]
            exact leads_digits (sign :: digits)
        · exact absurd rfl hexponent
      · exact absurd rfl hexponent
    · exact absurd rfl hexponent

theorem leads_decimal (cs : List Char) :
    Leads .code 0 cs (cs.drop (DecimalLiteral.scan cs).length) := by
  let whole := cs.takeWhile Char.isDigit
  let behindWhole := cs.drop whole.length
  let behindFraction := behindWhole.drop
    (if (fractionDigits behindWhole).isEmpty then 0 else (fractionDigits behindWhole).length + 1)
  have hscan : (DecimalLiteral.scan cs).exponent = exponentDigits behindFraction := by
    show exponentDigits (if _ then _ else _) = _
    split <;> simp_all [behindFraction, behindWhole, whole]
  have hdrop : cs.drop (DecimalLiteral.scan cs).length = behindFraction.drop
      (if (exponentDigits behindFraction).isEmpty then 0
        else (exponentDigits behindFraction).length + 1) := by
    rw [DecimalLiteral.length, hscan, ← List.drop_drop, ← List.drop_drop]
    rfl
  rw [hdrop]
  exact ((leads_digits cs).trans (leads_fraction behindWhole)).trans (leads_exponent behindFraction)

theorem leads_hexadecimal {cs digits : List Char} (h : hexDigits? cs = some digits) :
    Leads .code 0 cs (cs.drop (digits.length + 2)) := by
  unfold hexDigits? at h
  split at h
  · rename_i x rest
    split at h
    · rename_i hx
      have hplain : isPlain x = true := by rcases hx with rfl | rfl <;> rfl
      split at h
      · cases h
      · cases h
        exact .plain rfl (.plain hplain (leads_takeWhile (fun _ => Place.isPlain_of_isHexDigit) rest))
    · cases h
  · cases h

/-- A string is one up to its closing quote. -/
theorem leads_readQuoted {quote : Char} {done cs read : List Char} {p : Position}
    (h : readQuoted quote done p cs = some (read, d)) : Leads (.string quote) 0 cs d.rest := by
  fun_induction readQuoted quote done p cs with
  | case1 => cases h
  | case2 =>
      cases h
      exact .step (by simpa [Place.next] using .refl []) rfl
  | case3 => cases h
  | case4 =>
      cases h
      exact .step (by simpa [Place.next] using .refl _) rfl
  | case5 _ _ _ _ hclose ih =>
      refine .step ?_ rfl
      rw [Place.next, if_neg hclose, if_pos rfl]
      exact .step (ih h) rfl
  | case6 _ _ _ _ _ hclose hescape ih =>
      refine .step ?_ rfl
      rw [Place.next, if_neg hclose, if_neg hescape]
      exact ih h

/-! ### Operators -/

namespace Grammar

theorem leadingOperator?_weight {symbol : String} {kind : FixedKind}
    (h : leadingOperator? symbol = some kind) : symbol ≠ "/" ∧ symbolWeight symbol = 0 := by
  unfold leadingOperator? at h
  split at h
  case h_7 => cases h
  all_goals decide

theorem binaryOperator?_weight {level : Nat} {symbol : String} {op : BinaryOp}
    (h : binaryOperator? level symbol = some op) : symbolWeight symbol = 0 := by
  have hall : ∀ op ∈ BinaryOp.all, symbolWeight op.symbol = 0 := by decide
  unfold binaryOperator? at h
  split at h
  · rename_i found hop
    have hsymbol : found.symbol = symbol := by simpa using List.find?_some hop
    exact hsymbol ▸ hall found found.mem_all
  · cases h

theorem assignmentOperator?_weight {symbol : String} {kind : FixedKind} (hmem : symbol ∈ symbols)
    (h : assignmentOperator? symbol = some kind) : symbol ≠ "/" ∧ symbolWeight symbol = 0 := by
  have hall : ∀ s ∈ symbols, assignmentOperator? s ≠ none → s ≠ "/" ∧ symbolWeight s = 0 := by
    decide +kernel
  exact hall symbol hmem (by simp [h])

end Grammar

end SnippetRewrite
