import MonkeySyntax.Proofs.Lexing.Scan

/-!
# Symbols of a text

What the tokens of a text spell, parentheses left out. A lexeme that could not be longer adds its
own spelling, and blanks and parentheses add none; so the symbols of a written text are found piece
by piece from the front. Every token of a source but the end of input can be written out again.
-/

namespace MonkeySyntax

namespace TokenKind

def isParen (k : TokenKind) : Bool := k == lparen || k == rparen

end TokenKind

/-- The literal reads as a token of the kind. -/
def Token.Lexical (t : Token) : Prop := Lexing.IsLexeme t.kind t.literal.toList

def Token.lexeme (t : Token) (h : t.Lexical) : Lexing.Lexeme := ⟨t.kind, t.literal.toList, h⟩

@[simp] theorem Token.text_lexeme {t : Token} (h : t.Lexical) :
    (t.lexeme h).text = t.literal.toList := rfl

@[simp] theorem Token.spelling_lexeme {t : Token} (h : t.Lexical) :
    (t.lexeme h).spelling = t.spelling := by
  simp [lexeme, Lexing.Lexeme.spelling, spelling]

namespace Lexing

/-- What the tokens of a text spell, up to and including the end of input. -/
def spellings (cs : List Char) : List (TokenKind × String) :=
  (tokenize (String.ofList cs)).map Token.spelling

theorem spellings_nil : spellings [] = [(.eof, "")] := by
  let layout : Layout := ⟨⟨[], by simp⟩, []⟩
  have htext : layout.text = (String.ofList []).toList := String.toList_ofList.symm
  exact spellings_of_faithful htext trivial

theorem spellings_lexeme {a : Lexeme} {next : List Char} (h : a.EndsBefore next) :
    spellings (a.text ++ next) = a.spelling :: spellings next := by
  obtain ⟨l, rfl, hfaithful⟩ := exists_layout next
  let whole : Layout := ⟨⟨[], by simp⟩, (a, l.lead) :: l.pieces⟩
  have htext : whole.text = a.text ++ l.text := by simp [whole, Layout.text]
  have hwhole : whole.Faithful := ⟨h, hfaithful⟩
  rw [spellings, spellings, spellings_of_faithful (htext.trans String.toList_ofList.symm) hwhole,
    spellings_of_faithful String.toList_ofList.symm hfaithful]
  rfl

theorem spellings_blank {c : Char} {next : List Char} (hc : isBlank c) :
    spellings (c :: next) = spellings next := by
  obtain ⟨l, rfl, hfaithful⟩ := exists_layout next
  let whole : Layout := ⟨⟨c :: l.lead.1, List.forall_mem_cons.mpr ⟨hc, l.lead.2⟩⟩, l.pieces⟩
  have htext : whole.text = c :: l.text := rfl
  have hwhole : whole.Faithful := hfaithful
  rw [spellings, spellings, spellings_of_faithful (htext.trans String.toList_ofList.symm) hwhole,
    spellings_of_faithful String.toList_ofList.symm hfaithful]
  rfl

/-! ## Leaving out parentheses -/

def symbols (cs : List Char) : List (TokenKind × String) :=
  (spellings cs).filter fun s => !s.1.isParen

theorem symbols_nil : symbols [] = [(.eof, "")] := by
  rw [symbols, spellings_nil]
  rfl

theorem symbols_blank {c : Char} {next : List Char} (hc : isBlank c) :
    symbols (c :: next) = symbols next := by
  rw [symbols, spellings_blank hc]
  rfl

theorem symbols_paren {c : Char} {next : List Char} (hc : c = '(' ∨ c = ')') :
    symbols (c :: next) = symbols next := by
  have hlexeme : ∃ a : Lexeme, a.text = [c] ∧ a.kind.isParen ∧ isWordChar c = false ∧ c ≠ '=' ∧
      c ≠ '!' := by
    rcases hc with rfl | rfl
    · exact ⟨⟨.lparen, ['('], .operator (by decide)⟩, rfl, rfl, rfl, by decide, by decide⟩
    · exact ⟨⟨.rparen, [')'], .operator (by decide)⟩, rfl, rfl, rfl, by decide, by decide⟩
  obtain ⟨a, htext, hparen, hchar, heq, hbang⟩ := hlexeme
  have hends : a.EndsBefore next := by
    apply Lexeme.endsBefore_of_symbol (by rw [htext]; rfl) hchar
    rw [htext]
    simp [heq, hbang]
  have hspellings := spellings_lexeme hends
  rw [htext] at hspellings
  rw [symbols, ← List.singleton_append, hspellings, List.filter_cons_of_neg]
  · rfl
  · simpa [Lexeme.spelling] using hparen

/-! ## Tokens in front of a text -/

variable {t : Token} {next : List Char}

/-- A word, a number or an equality sign could not go on here. -/
def Closes (next : List Char) : Prop := ∀ c ∈ next.head?, isWordChar c = false ∧ c ≠ '='

theorem closes_nil : Closes [] := by simp [Closes]

theorem closes_cons {c : Char} (h : isWordChar c = false ∧ c ≠ '=') : Closes (c :: next) := by
  simpa [Closes] using h

theorem Lexeme.endsBefore_of_closes {a : Lexeme} (h : Closes next) : a.EndsBefore next where
  word _ c hc := (h c hc).1
  number _ c hc := by
    have hchar := (h c hc).1
    simp only [isWordChar, Bool.or_eq_false_iff] at hchar
    exact hchar.2
  operator _ hc := (h '=' hc).2 rfl

theorem symbols_lexeme {a : Lexeme} (hparen : a.kind.isParen = false) (h : a.EndsBefore next) :
    symbols (a.text ++ next) = a.spelling :: symbols next := by
  rw [symbols, spellings_lexeme h, List.filter_cons_of_pos]
  · rfl
  · simpa [Lexeme.spelling] using hparen

theorem symbols_token (h : t.Lexical) (hparen : t.kind.isParen = false)
    (hends : (t.lexeme h).EndsBefore next) :
    symbols (t.literal.toList ++ next) = t.spelling :: symbols next := by
  rw [← Token.text_lexeme h, symbols_lexeme hparen hends, Token.spelling_lexeme]

theorem symbols_token_of_closes (h : t.Lexical) (hparen : t.kind.isParen = false)
    (hnext : Closes next) : symbols (t.literal.toList ++ next) = t.spelling :: symbols next :=
  symbols_token h hparen (Lexeme.endsBefore_of_closes hnext)

theorem symbols_token_blank (h : t.Lexical) (hparen : t.kind.isParen = false) :
    symbols (t.literal.toList ++ ' ' :: next) = t.spelling :: symbols next := by
  rw [symbols_token_of_closes h hparen (closes_cons (by decide)), symbols_blank rfl]

/-- A semicolon ends whatever stands in front of it, and nothing goes on with it. -/
theorem symbols_semicolon (next : List Char) :
    symbols (';' :: next) = (.semicolon, ";") :: symbols next := by
  let a : Lexeme := ⟨.semicolon, [';'], .operator (by decide)⟩
  have hends : a.EndsBefore next := Lexeme.endsBefore_of_symbol rfl (by decide) (by simp [a])
  have hspelling : a.spelling = (.semicolon, ";") := by decide
  have hsymbols := symbols_lexeme rfl hends
  rw [hspelling] at hsymbols
  exact hsymbols

/-! ## Kinds of lexemes -/

/-- What is no word, no number and no stray character is the spelling of its kind. -/
theorem IsLexeme.ofOperator? {k : TokenKind} {w : List Char} (h : IsLexeme k w)
    (hk : k ∉ [.illegal, .ident, .int, .function, .letKw, .returnKw]) :
    TokenKind.ofOperator? w = some k := by
  cases h with
  | word hword hkind =>
    rcases hkind with hkeyword | ⟨rfl, -⟩
    · simp only [TokenKind.keywords, List.mem_cons, Prod.mk.injEq, List.not_mem_nil,
        or_false] at hkeyword
      rcases hkeyword with ⟨-, rfl⟩ | ⟨-, rfl⟩ | ⟨-, rfl⟩ <;> simp at hk
    · simp at hk
  | number => simp at hk
  | operator listed => exact TokenKind.ofOperator?_eq_some_iff.mpr listed
  | stray => simp at hk

theorem literal_of_assign (h : t.Lexical) (hkind : t.kind = .assign) : t.literal = "=" := by
  have hlisted := IsLexeme.ofOperator? h (by simp [hkind])
  rw [TokenKind.ofOperator?_eq_some_iff, String.ofList_toList, hkind] at hlisted
  simpa [TokenKind.operators, TokenKind.label] using hlisted

/-- Neither an identifier nor an integer starts with an equality sign. -/
theorem IsLexeme.head?_ne_eq {k : TokenKind} {w : List Char} (h : IsLexeme k w)
    (hk : k = .ident ∨ k = .int) : w.head? ≠ some '=' := by
  have hclass : IsWord w ∨ IsNumber w := by
    cases h with
    | word hword => exact Or.inl hword
    | number hnumber => exact Or.inr hnumber
    | operator listed =>
      rw [← TokenKind.ofOperator?_eq_some_iff] at listed
      unfold TokenKind.ofOperator? at listed
      rcases hk with rfl | rfl
      · split at listed <;> cases listed
      · split at listed <;> cases listed
    | stray => simp at hk
  intro hhead
  obtain ⟨cs, rfl⟩ := List.head?_eq_some_iff.mp hhead
  rcases hclass with hword | hnumber
  · cases hword.1
  · cases hnumber.2 '=' (by simp)

/-- Every token that a lexer delivers can be written out, unless it is the end of input. -/
theorem lexical_of_mem_tokenize {s : String} (ht : t ∈ tokenize s) (heof : t.kind ≠ .eof) :
    t.Lexical := by
  obtain ⟨layout, htext, hfaithful⟩ := exists_layout s.toList
  have hspelling := List.mem_map_of_mem (f := Token.spelling) ht
  rw [spellings_of_faithful htext hfaithful] at hspelling
  rcases List.mem_append.mp hspelling with hmem | hend
  · obtain ⟨a, -, ha⟩ := List.mem_map.mp hmem
    obtain ⟨hkind, hliteral⟩ := Prod.mk.inj ha
    have hlexeme := a.isLexeme
    rw [← String.toList_ofList (l := a.text), hliteral, hkind] at hlexeme
    exact hlexeme
  · exact absurd (congrArg Prod.fst (List.mem_singleton.mp hend)) heof

end Lexing

end MonkeySyntax
