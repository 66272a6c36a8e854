import Mathlib.Data.List.TakeWhile
import MonkeySyntax.Lexer

/-!
# Lexemes

The lexical units of the language as they stand in a source: words, numbers, operators and
delimiters, and any other character on its own. Whether a lexeme could be longer shows in the
character behind it. The main statement is that any text that starts with no blank starts with a
lexeme that could not be longer.
-/

namespace MonkeySyntax

/-- Kind and text, without the position. -/
def Token.spelling (t : Token) : TokenKind × String := (t.kind, t.literal)

namespace Lexing

/-! ## Classes of texts -/

def IsWord : List Char → Prop
  | [] => False
  | c :: cs => isLetter c ∧ ∀ d ∈ cs, isWordChar d

instance : DecidablePred IsWord
  | [] => inferInstanceAs (Decidable False)
  | c :: cs => decidable_of_iff (isLetter c ∧ cs.all isWordChar) (by simp [IsWord])

def IsNumber (w : List Char) : Prop := w ≠ [] ∧ ∀ d ∈ w, d.isDigit

instance : DecidablePred IsNumber := fun w =>
  decidable_of_iff (w ≠ [] ∧ w.all Char.isDigit) (by simp [IsNumber])

/-- The character starts no other lexeme and is no blank. -/
structure IsStray (c : Char) : Prop where
  blank : isBlank c = false
  letter : isLetter c = false
  digit : c.isDigit = false
  operator : ∀ k, (String.ofList [c], k) ∉ TokenKind.operators

/-- A reserved word has a kind of its own, and every other word is an identifier. -/
def WordKind (w : List Char) (k : TokenKind) : Prop :=
  (String.ofList w, k) ∈ TokenKind.keywords ∨
    k = .ident ∧ ∀ k', (String.ofList w, k') ∉ TokenKind.keywords

/-- The text is a lexeme of the kind. -/
inductive IsLexeme : TokenKind → List Char → Prop
  | word {k : TokenKind} {w : List Char} (word : IsWord w) (kind : WordKind w k) : IsLexeme k w
  | number {w : List Char} (number : IsNumber w) : IsLexeme .int w
  | operator {k : TokenKind} {w : List Char}
      (listed : (String.ofList w, k) ∈ TokenKind.operators) : IsLexeme k w
  | stray {c : Char} (stray : IsStray c) : IsLexeme .illegal [c]

structure Lexeme where
  kind : TokenKind
  text : List Char
  isLexeme : IsLexeme kind text

namespace Lexeme

def spelling (a : Lexeme) : TokenKind × String := (a.kind, String.ofList a.text)

/-- The lexeme could not be longer in front of the given text. -/
structure EndsBefore (a : Lexeme) (next : List Char) : Prop where
  word : IsWord a.text → ∀ c ∈ next.head?, isWordChar c = false
  number : IsNumber a.text → ∀ c ∈ next.head?, c.isDigit = false
  operator : a.text = ['='] ∨ a.text = ['!'] → next.head? ≠ some '='

end Lexeme

/-! ## Characters -/

/-- What is taken stops at the first character that is not accepted. -/
theorem takeWhile_append {accept : Char → Bool} {cs next : List Char} (hcs : ∀ c ∈ cs, accept c)
    (hnext : ∀ c ∈ next.head?, accept c = false) : (cs ++ next).takeWhile accept = cs := by
  rw [List.takeWhile_append_of_pos hcs]
  cases next with
  | nil => simp
  | cons c next => simp [hnext c rfl]

theorem isDigit_eq_false {c : Char} (h : isLetter c) : c.isDigit = false := by
  simp only [isLetter, Bool.or_eq_true, beq_iff_eq] at h
  rcases h with rfl | h
  · decide
  · have hrange : 'A'.val ≤ c.val ∧ c.val ≤ 'Z'.val ∨ 'a'.val ≤ c.val ∧ c.val ≤ 'z'.val := by
      rcases (Bool.or_eq_true _ _).mp h with hupper | hlower
      · exact Or.inl (of_decide_eq_true hupper)
      · obtain ⟨hlo, hhi⟩ := (Bool.and_eq_true _ _).mp hlower
        exact Or.inr ⟨of_decide_eq_true hlo, of_decide_eq_true hhi⟩
    simp only [Char.isDigit]
    grind

theorem isWordChar_iff {c : Char} : isWordChar c ↔ isLetter c ∨ c.isDigit := by
  simp [isWordChar]

theorem isWordChar_of_isBlank {c : Char} (h : isBlank c) : isWordChar c = false := by
  simp only [isBlank, Bool.or_eq_true, beq_iff_eq] at h
  rcases h with ((rfl | rfl) | rfl) | rfl <;> decide

theorem isBlank_of_isWordChar {c : Char} (h : isWordChar c) : isBlank c = false := by
  rw [← Bool.not_eq_true]
  intro hblank
  simp [isWordChar_of_isBlank hblank] at h

/-- Only two operators are longer than one character. -/
theorem operator_cases {w : List Char} {k : TokenKind} (h : TokenKind.ofOperator? w = some k) :
    (∃ c, w = [c] ∧ isBlank c = false ∧ isWordChar c = false) ∨
      w = ['=', '='] ∧ k = .eq ∨ w = ['!', '='] ∧ k = .notEq := by
  unfold TokenKind.ofOperator? at h
  split at h <;> cases h <;>
    first
    | exact Or.inl ⟨_, rfl, rfl, rfl⟩
    | exact Or.inr (Or.inl ⟨rfl, rfl⟩)
    | exact Or.inr (Or.inr ⟨rfl, rfl⟩)

theorem IsStray.ofOperator? {c : Char} (h : IsStray c) : TokenKind.ofOperator? [c] = none := by
  rw [Option.eq_none_iff_forall_ne_some]
  intro k hk
  exact h.operator k (TokenKind.ofOperator?_eq_some_iff.mp hk)

theorem WordKind.eq {w : List Char} {k : TokenKind} (h : WordKind w k) :
    (TokenKind.ofKeyword? w).getD .ident = k := by
  rcases h with hkeyword | ⟨rfl, hnone⟩
  · rw [TokenKind.ofKeyword?_eq_some_iff.mpr hkeyword]
    rfl
  · cases hw : TokenKind.ofKeyword? w with
    | none => rfl
    | some k => exact absurd (TokenKind.ofKeyword?_eq_some_iff.mp hw) (hnone k)

theorem WordKind.ne_eof {w : List Char} {k : TokenKind} (h : WordKind w k) : k ≠ .eof := by
  rintro rfl
  rcases h with hkeyword | ⟨hident, -⟩
  · simp [TokenKind.keywords] at hkeyword
  · cases hident

theorem ofOperator?_ne_eof {w : List Char} : TokenKind.ofOperator? w ≠ some .eof := by
  intro h
  unfold TokenKind.ofOperator? at h
  split at h <;> cases h

theorem wordKind_getD (w : List Char) : WordKind w ((TokenKind.ofKeyword? w).getD .ident) := by
  cases hw : TokenKind.ofKeyword? w with
  | none =>
    refine Or.inr ⟨rfl, fun k hk => ?_⟩
    rw [← TokenKind.ofKeyword?_eq_some_iff, hw] at hk
    cases hk
  | some k => exact Or.inl (TokenKind.ofKeyword?_eq_some_iff.mp hw)

/-! ## The first character of a lexeme -/

namespace Lexeme

/-- The first character tells what kind of text the lexeme is. -/
structure Starts (a : Lexeme) (c : Char) : Prop where
  head : a.text.head? = some c
  blank : isBlank c = false
  wordChar : isWordChar c ↔ IsWord a.text ∨ IsNumber a.text
  digit : c.isDigit ↔ IsNumber a.text
  sign : c = '=' ↔ a.text = ['='] ∨ a.text = ['=', '=']

theorem starts_of_wordChar_false {a : Lexeme} {c : Char} {cs : List Char} (htext : a.text = c :: cs)
    (hblank : isBlank c = false) (hchar : isWordChar c = false)
    (hsign : c = '=' ↔ a.text = ['='] ∨ a.text = ['=', '=']) : a.Starts c := by
  have hletter : ¬ isLetter c := fun h => by simp [isWordChar_iff.mpr (Or.inl h)] at hchar
  have hdigit : ¬ c.isDigit := fun h => by simp [isWordChar_iff.mpr (Or.inr h)] at hchar
  have hword : ¬ IsWord a.text := by
    rw [htext]
    exact fun h => hletter h.1
  have hnumber : ¬ IsNumber a.text := by
    rw [htext]
    exact fun h => hdigit (h.2 c (by simp))
  exact ⟨by rw [htext]; rfl, hblank, by simp [hchar, hword, hnumber], by simp [hdigit, hnumber],
    hsign⟩

theorem exists_starts (a : Lexeme) : ∃ c, a.Starts c := by
  obtain ⟨k, w, h⟩ := a
  cases h with
  | word hword hkind =>
    cases w with
    | nil => cases hword
    | cons c cs =>
      have hdigit := isDigit_eq_false hword.1
      have hchar := isWordChar_iff.mpr (Or.inl hword.1)
      have hnumber : ¬ IsNumber (c :: cs) := fun h => by simpa [hdigit] using h.2 c (by simp)
      refine ⟨c, rfl, isBlank_of_isWordChar hchar, by simp [hchar, hword],
        by simp [hdigit, hnumber], ?_⟩
      constructor
      · rintro rfl
        cases hword.1
      · rintro (heq | heq) <;> cases heq <;> rfl
  | number hnumber =>
    cases w with
    | nil => exact absurd rfl hnumber.1
    | cons c cs =>
      have hdigit := hnumber.2 c (by simp)
      have hchar := isWordChar_iff.mpr (Or.inr hdigit)
      refine ⟨c, rfl, isBlank_of_isWordChar hchar, by simp [hchar, hnumber],
        by simp [hdigit, hnumber], ?_⟩
      constructor
      · rintro rfl
        cases hdigit
      · rintro (heq | heq) <;> cases heq <;> rfl
  | operator listed =>
    rw [← TokenKind.ofOperator?_eq_some_iff] at listed
    rcases operator_cases listed with ⟨c, rfl, hblank, hchar⟩ | ⟨rfl, -⟩ | ⟨rfl, -⟩
    · exact ⟨c, starts_of_wordChar_false rfl hblank hchar (by simp)⟩
    · exact ⟨'=', starts_of_wordChar_false rfl rfl rfl (by simp)⟩
    · exact ⟨'!', starts_of_wordChar_false rfl rfl rfl (by simp)⟩
  | stray hstray =>
    rename_i c
    refine ⟨c, starts_of_wordChar_false rfl hstray.blank ?_ (by simp)⟩
    simp [isWordChar, hstray.letter, hstray.digit]

theorem text_ne_nil (a : Lexeme) : a.text ≠ [] := by
  obtain ⟨c, hc⟩ := a.exists_starts
  intro hnil
  simpa [hnil] using hc.head

/-- No lexeme is the end of input. -/
theorem kind_ne_eof (a : Lexeme) : a.kind ≠ .eof := by
  obtain ⟨k, w, h⟩ := a
  rintro rfl
  cases h with
  | word hword hkind => exact hkind.ne_eof rfl
  | operator listed => exact ofOperator?_ne_eof (TokenKind.ofOperator?_eq_some_iff.mpr listed)

/-- No character of a lexeme is a blank. -/
theorem isBlank_of_mem_text (a : Lexeme) : ∀ c ∈ a.text, isBlank c = false := by
  obtain ⟨k, w, h⟩ := a
  cases h with
  | word hword hkind =>
    cases w with
    | nil => cases hword
    | cons c cs =>
      intro d hd
      apply isBlank_of_isWordChar
      rcases List.mem_cons.mp hd with rfl | hd
      · exact isWordChar_iff.mpr (Or.inl hword.1)
      · exact hword.2 d hd
  | number hnumber =>
    exact fun d hd => isBlank_of_isWordChar (isWordChar_iff.mpr (Or.inr (hnumber.2 d hd)))
  | operator listed =>
    rw [← TokenKind.ofOperator?_eq_some_iff] at listed
    rcases operator_cases listed with ⟨c, rfl, hblank, -⟩ | ⟨rfl, -⟩ | ⟨rfl, -⟩
    · simpa using hblank
    · simp [isBlank]
    · simp [isBlank]
  | stray hstray => simpa using hstray.blank

end Lexeme

/-! ## The longest lexeme -/

theorem isWord_append {w cs : List Char} (hw : w ≠ []) :
    IsWord (w ++ cs) ↔ IsWord w ∧ ∀ d ∈ cs, isWordChar d := by
  cases w with
  | nil => exact absurd rfl hw
  | cons c w => simp [IsWord, or_imp, forall_and, and_assoc]

theorem isNumber_append {w cs : List Char} (hw : w ≠ []) :
    IsNumber (w ++ cs) ↔ IsNumber w ∧ ∀ d ∈ cs, d.isDigit := by
  simp [IsNumber, hw, or_imp, forall_and]

theorem eq_of_append_eq_pair {w cs : List Char} {c x y : Char} (hw : w ≠ [])
    (h : w ++ c :: cs = [x, y]) : w = [x] ∧ c = y := by
  obtain ⟨d, t, rfl⟩ := List.exists_cons_of_ne_nil hw
  cases t <;> simp_all

namespace Lexeme

variable {a : Lexeme} {next : List Char}

theorem not_isLexeme_append (h : a.EndsBefore next) {c : Char} {cs : List Char}
    (hnext : next.head? = some c) (k : TokenKind) : ¬ IsLexeme k (a.text ++ c :: cs) := by
  have hne := a.text_ne_nil
  have hlong : ∀ d, a.text ++ c :: cs ≠ [d] := by
    intro d heq
    have hlength := congrArg List.length heq
    have hpos := List.length_pos_iff.mpr hne
    simp only [List.length_append, List.length_cons, List.length_nil] at hlength
    omega
  intro hlonger
  generalize htext : a.text ++ c :: cs = w at hlonger hlong
  cases hlonger with
  | word hword hkind =>
    rw [← htext, isWord_append hne] at hword
    have := h.word hword.1 c hnext
    simp [hword.2 c (by simp)] at this
  | number hnumber =>
    rw [← htext, isNumber_append hne] at hnumber
    have := h.number hnumber.1 c hnext
    simp [hnumber.2 c (by simp)] at this
  | operator listed =>
    rw [← TokenKind.ofOperator?_eq_some_iff] at listed
    rcases operator_cases listed with ⟨d, rfl, -⟩ | ⟨rfl, -⟩ | ⟨rfl, -⟩
    · exact hlong d rfl
    · obtain ⟨hone, rfl⟩ := eq_of_append_eq_pair hne htext
      exact h.operator (Or.inl hone) hnext
    · obtain ⟨hone, rfl⟩ := eq_of_append_eq_pair hne htext
      exact h.operator (Or.inr hone) hnext
  | stray => exact hlong _ rfl

theorem exists_isLexeme_append {c : Char} (hnext : next.head? = some c) (h : ¬ a.EndsBefore next) :
    ∃ k, IsLexeme k (a.text ++ [c]) := by
  have hne := a.text_ne_nil
  by_contra hnone
  refine h ⟨fun hword d hd => ?_, fun hnumber d hd => ?_, fun hsign hd => ?_⟩
  · obtain rfl := Option.some.inj (hnext.symm.trans hd)
    rw [← Bool.not_eq_true]
    intro hchar
    exact hnone ⟨_, .word ((isWord_append hne).mpr ⟨hword, by simpa using hchar⟩) (wordKind_getD _)⟩
  · obtain rfl := Option.some.inj (hnext.symm.trans hd)
    rw [← Bool.not_eq_true]
    intro hdigit
    exact hnone ⟨_, .number ((isNumber_append hne).mpr ⟨hnumber, by simpa using hdigit⟩)⟩
  · obtain rfl := Option.some.inj (hnext.symm.trans hd)
    rcases hsign with htext | htext
    · exact hnone ⟨.eq, .operator (by rw [htext]; decide)⟩
    · exact hnone ⟨.notEq, .operator (by rw [htext]; decide)⟩

/-- The condition on the next character says that no longer lexeme stands there. -/
theorem endsBefore_iff :
    a.EndsBefore next ↔ ∀ cs, cs ≠ [] → cs <+: next → ∀ k, ¬ IsLexeme k (a.text ++ cs) := by
  constructor
  · rintro h (_ | ⟨c, cs⟩) hne ⟨rest, rfl⟩ k
    · exact absurd rfl hne
    · exact not_isLexeme_append h rfl k
  · intro h
    cases next with
    | nil => exact ⟨by simp, by simp, by simp⟩
    | cons c rest =>
      by_contra hends
      obtain ⟨k, hk⟩ := exists_isLexeme_append rfl hends
      exact h [c] (by simp) ⟨rest, rfl⟩ k hk

theorem endsBefore_nil (a : Lexeme) : a.EndsBefore [] := ⟨by simp, by simp, by simp⟩

/-- A blank ends every lexeme. -/
theorem endsBefore_blank {c : Char} {cs : List Char} (hc : isBlank c) : a.EndsBefore (c :: cs) := by
  have hchar := isWordChar_of_isBlank hc
  have hdigit : c.isDigit = false := by
    simp only [isWordChar, Bool.or_eq_false_iff] at hchar
    exact hchar.2
  refine ⟨by simpa using fun _ => hchar, by simpa using fun _ => hdigit, fun _ hsign => ?_⟩
  obtain rfl := Option.some.inj hsign
  cases hc

/-- A lexeme that is no word and no number can only be stopped by an equality sign. -/
theorem endsBefore_of_symbol {c : Char} (hhead : a.text.head? = some c)
    (hchar : isWordChar c = false)
    (hsign : a.text = ['='] ∨ a.text = ['!'] → next.head? ≠ some '=') : a.EndsBefore next := by
  obtain ⟨d, hd⟩ := a.exists_starts
  obtain rfl := Option.some.inj (hhead.symm.trans hd.head)
  have hclass : ¬ (IsWord a.text ∨ IsNumber a.text) := by
    rw [← hd.wordChar, hchar]
    exact Bool.false_ne_true
  exact ⟨fun hword => absurd (Or.inl hword) hclass, fun hnumber => absurd (Or.inr hnumber) hclass,
    hsign⟩

end Lexeme

/-! ## There is always a lexeme -/

variable {c : Char} {cs : List Char}

theorem exists_word (hletter : isLetter c) :
    ∃ (a : Lexeme) (rest : List Char), c :: cs = a.text ++ rest ∧ a.EndsBefore rest := by
  have hword : IsWord (c :: cs.takeWhile isWordChar) :=
    ⟨hletter, fun d hd => List.mem_takeWhile_imp hd⟩
  have hstop := List.head?_dropWhile_not isWordChar cs
  refine ⟨⟨_, _, .word hword (wordKind_getD _)⟩, cs.dropWhile isWordChar, by simp, ?_, ?_, ?_⟩
  · intro _ d hd
    simpa [Option.mem_def.mp hd] using hstop
  · intro hnumber
    simpa [isDigit_eq_false hletter] using hnumber.2 c (by simp)
  · rintro (heq | heq) <;> obtain rfl := (List.cons.inj heq).1 <;> cases hletter

theorem exists_number (hdigit : c.isDigit) :
    ∃ (a : Lexeme) (rest : List Char), c :: cs = a.text ++ rest ∧ a.EndsBefore rest := by
  have hnumber : IsNumber (c :: cs.takeWhile Char.isDigit) :=
    ⟨by simp, List.forall_mem_cons.mpr ⟨hdigit, fun d hd => List.mem_takeWhile_imp hd⟩⟩
  have hstop := List.head?_dropWhile_not Char.isDigit cs
  refine ⟨⟨_, _, .number hnumber⟩, cs.dropWhile Char.isDigit, by simp, ?_, ?_, ?_⟩
  · intro hword
    simp [isDigit_eq_false hword.1] at hdigit
  · intro _ d hd
    simpa [Option.mem_def.mp hd] using hstop
  · rintro (heq | heq) <;> obtain rfl := (List.cons.inj heq).1 <;> cases hdigit

theorem exists_symbol (hblank : isBlank c = false) (hchar : isWordChar c = false) :
    ∃ (a : Lexeme) (rest : List Char), c :: cs = a.text ++ rest ∧ a.EndsBefore rest := by
  by_cases hpair : (c = '=' ∨ c = '!') ∧ cs.head? = some '='
  · obtain ⟨hsign, hnext⟩ := hpair
    obtain ⟨rest, rfl⟩ := List.head?_eq_some_iff.mp hnext
    have hlisted : ∃ k, TokenKind.ofOperator? [c, '='] = some k := by
      rcases hsign with rfl | rfl
      · exact ⟨_, rfl⟩
      · exact ⟨_, rfl⟩
    obtain ⟨k, hk⟩ := hlisted
    refine ⟨⟨k, [c, '='], .operator (TokenKind.ofOperator?_eq_some_iff.mp hk)⟩, rest, rfl, ?_⟩
    exact Lexeme.endsBefore_of_symbol rfl hchar (by simp)
  · have hone : ∀ a : Lexeme, a.text = [c] → a.EndsBefore cs := by
      intro a htext
      refine Lexeme.endsBefore_of_symbol (by rw [htext]; rfl) hchar fun hsign hnext => hpair ?_
      exact ⟨by simpa [htext] using hsign, hnext⟩
    cases hk : TokenKind.ofOperator? [c] with
    | some k =>
      exact ⟨⟨k, [c], .operator (TokenKind.ofOperator?_eq_some_iff.mp hk)⟩, cs, rfl, hone _ rfl⟩
    | none =>
      simp only [isWordChar, Bool.or_eq_false_iff] at hchar
      have hstray : IsStray c := by
        refine ⟨hblank, hchar.1, hchar.2, fun k hlisted => ?_⟩
        rw [← TokenKind.ofOperator?_eq_some_iff, hk] at hlisted
        cases hlisted
      exact ⟨⟨.illegal, [c], .stray hstray⟩, cs, rfl, hone _ rfl⟩

/-- What starts with no blank starts with a lexeme that could not be longer. -/
theorem exists_lexeme (hblank : isBlank c = false) :
    ∃ (a : Lexeme) (rest : List Char), c :: cs = a.text ++ rest ∧ a.EndsBefore rest := by
  by_cases hletter : isLetter c
  · exact exists_word hletter
  · by_cases hdigit : c.isDigit
    · exact exists_number hdigit
    · exact exists_symbol hblank (by simp [isWordChar, hletter, hdigit])

end Lexing

end MonkeySyntax
