import MonkeySyntax.Proofs.Lexing.Layout

/-!
# Scanning a layout

In front of a lexeme that could not be longer the lexer delivers that lexeme and stops behind it,
whatever blanks stand in between. So on a faithful layout it delivers the lexemes in their order,
and then the end of input.
-/

namespace MonkeySyntax

open Lexing

namespace Lexing.Pieces

/-- The tokens of the lexemes, the first of them at the cursor, and the end of input behind them. -/
def tokens (c : Cursor) : Pieces → List Token
  | [] => [⟨.eof, "", c.line, c.column⟩]
  | p :: ps =>
    ⟨p.1.kind, String.ofList p.1.text, c.line, c.column⟩ :: tokens (c.past (p.1.text ++ p.2.1)) ps

/-- Wherever they stand, the tokens are spelled as the lexemes are. -/
theorem exists_tokens_eq (c : Cursor) (ps : Pieces) :
    ∃ ts e, tokens c ps = ts ++ [e] ∧ ts.map Token.spelling = ps.map (fun p => p.1.spelling) ∧
      e.spelling = (.eof, "") := by
  induction ps generalizing c with
  | nil => exact ⟨[], ⟨.eof, "", c.line, c.column⟩, rfl, rfl, rfl⟩
  | cons p ps ih =>
    obtain ⟨ts, e, htokens, hspelling, hend⟩ := ih (c.past (p.1.text ++ p.2.1))
    refine ⟨⟨p.1.kind, String.ofList p.1.text, c.line, c.column⟩ :: ts, e, ?_, ?_, hend⟩
    · rw [tokens, htokens]
      rfl
    · rw [List.map_cons, hspelling]
      rfl

end Lexing.Pieces

namespace Cursor

variable {c : Cursor}

theorem past_append (c : Cursor) (cs ds : List Char) :
    c.past (cs ++ ds) = (c.past cs).past ds := List.foldl_append

theorem position_past (h : 0 ≤ c.position) (cs : List Char) : 0 ≤ (c.past cs).position := by
  rw [past_position]
  omega

theorem rest_past (h : 0 ≤ c.position) {cs next : List Char} (hrest : c.rest = cs ++ next) :
    (c.past cs).rest = next := by
  induction cs generalizing c with
  | nil => exact hrest
  | cons ch cs ih =>
    have hstep : 0 ≤ (c.step ch).position := c.position_past h [ch]
    rw [past_cons]
    apply ih hstep
    rw [rest_step h, hrest]
    rfl

theorem skipBlanks_eq_past (h : 0 ≤ c.position) {g : Gap} {next : List Char}
    (hrest : c.rest = g.1 ++ next) (hnext : ∀ ch ∈ next.head?, isBlank ch = false) :
    c.skipBlanks = c.past g.1 := by
  have henter : c.enter = c := by
    rw [enter, if_neg (by omega)]
  rw [skipBlanks, henter, takeWhile_past, takeWhile_fst h, hrest, takeWhile_append g.2 hnext]

/-- Two characters are enough to find the longest operator. -/
theorem operator?_eq (h : 0 ≤ c.position) {a : Char} {next : List Char}
    (hrest : c.rest = a :: next) :
    c.operator? = (next.head?.bind fun b =>
      (TokenKind.ofOperator? [a, b]).map (·, [a, b])).or
        ((TokenKind.ofOperator? [a]).map (·, [a])) := by
  have ha : c.peek? 0 = c.rest[0]? := peek?_eq_getElem? h 0
  have hb : c.peek? 1 = c.rest[1]? := peek?_eq_getElem? h 1
  rw [hrest] at ha hb
  cases next with
  | nil => simp [operator?, ha, hb]
  | cons b next => cases hpair : TokenKind.ofOperator? [a, b] <;> simp [operator?, ha, hb, hpair]

theorem operator?_eq_none (h : 0 ≤ c.position) {a : Char} {next : List Char}
    (hrest : c.rest = a :: next) (ha : TokenKind.ofOperator? [a] = none) : c.operator? = none := by
  rw [operator?_eq h hrest, ha]
  cases hhead : next.head? with
  | none => rfl
  | some b =>
    cases hpair : TokenKind.ofOperator? [a, b] with
    | none => simp [hpair]
    | some k =>
      rcases operator_cases hpair with ⟨d, hd, -⟩ | ⟨hd, -⟩ | ⟨hd, -⟩ <;> cases hd <;> cases ha

/-- An operator that an equality sign does not make longer is the longest one. -/
theorem operator?_eq_some (h : 0 ≤ c.position) {k : TokenKind} {w next : List Char}
    (hrest : c.rest = w ++ next) (hk : TokenKind.ofOperator? w = some k)
    (hsign : w = ['='] ∨ w = ['!'] → next.head? ≠ some '=') : c.operator? = some (k, w) := by
  rcases operator_cases hk with ⟨a, rfl, -⟩ | ⟨rfl, rfl⟩ | ⟨rfl, rfl⟩
  · have hrest : c.rest = a :: next := hrest
    rw [operator?_eq h hrest, hk]
    cases hhead : next.head? with
    | none => rfl
    | some b =>
      cases hpair : TokenKind.ofOperator? [a, b] with
      | none => simp [hpair]
      | some k' =>
        rcases operator_cases hpair with ⟨d, hd, -⟩ | ⟨hd, -⟩ | ⟨hd, -⟩ <;> cases hd
        · exact absurd hhead (hsign (Or.inl rfl))
        · exact absurd hhead (hsign (Or.inr rfl))
  · rw [operator?_eq h hrest]
    rfl
  · rw [operator?_eq h hrest]
    rfl

/-- The lexer takes the lexeme in front of it if that could not be longer. -/
theorem lexeme_eq (h : 0 ≤ c.position) {a : Lexeme} {next : List Char} {ch : Char}
    (hrest : c.rest = a.text ++ next) (hch : a.text.head? = some ch) (hends : a.EndsBefore next) :
    c.lexeme ch = (a.kind, a.text) := by
  obtain ⟨k, w, hlexeme⟩ := a
  obtain ⟨cs, rfl⟩ := List.head?_eq_some_iff.mp hch
  cases hlexeme with
  | word hword hkind =>
    have hchars : ∀ d ∈ ch :: cs, isWordChar d :=
      List.forall_mem_cons.mpr ⟨isWordChar_iff.mpr (Or.inl hword.1), hword.2⟩
    have htake : (c.takeWhile isWordChar).1 = ch :: cs := by
      rw [takeWhile_fst h, hrest, takeWhile_append hchars (hends.word hword)]
    simp only [lexeme, hword.1, if_true, htake, hkind.eq]
  | number hnumber =>
    have hdigit := hnumber.2 ch (by simp)
    have hletter : ¬ isLetter ch := fun hl => by simp [isDigit_eq_false hl] at hdigit
    have htake : (c.takeWhile Char.isDigit).1 = ch :: cs := by
      rw [takeWhile_fst h, hrest, takeWhile_append hnumber.2 (hends.number hnumber)]
    rw [lexeme, if_neg hletter, if_pos hdigit, htake]
  | operator listed =>
    rw [← TokenKind.ofOperator?_eq_some_iff] at listed
    have hchar : isLetter ch = false ∧ ch.isDigit = false := by
      have hword : isWordChar ch = false := by
        rcases operator_cases listed with ⟨d, hd, -, hd'⟩ | ⟨hd, -⟩ | ⟨hd, -⟩ <;>
          obtain rfl := (List.cons.inj hd).1
        · exact hd'
        · rfl
        · rfl
      simpa [isWordChar] using hword
    rw [lexeme, if_neg (by simp [hchar.1]), if_neg (by simp [hchar.2]),
      operator?_eq_some h hrest listed hends.operator]
    rfl
  | stray hstray =>
    rw [lexeme, if_neg (by simp [hstray.letter]), if_neg (by simp [hstray.digit]),
      operator?_eq_none h hrest hstray.ofOperator?]
    rfl

/-- The token of a lexeme stands where the blanks end. -/
theorem scan_lexeme (h : 0 ≤ c.position) {g : Gap} {a : Lexeme} {next : List Char}
    (hrest : c.rest = g.1 ++ (a.text ++ next)) (hends : a.EndsBefore next) :
    c.scan = (⟨a.kind, String.ofList a.text, (c.past g.1).line, (c.past g.1).column⟩,
      c.past (g.1 ++ a.text)) := by
  obtain ⟨ch, hch⟩ := a.exists_starts
  have hhead : (a.text ++ next).head? = some ch := by
    rw [List.head?_append, hch.head]
    rfl
  have hskip : c.skipBlanks = c.past g.1 :=
    skipBlanks_eq_past h hrest fun d hd => Option.some.inj (hhead.symm.trans hd) ▸ hch.blank
  have hpast := rest_past h hrest
  have hposition := position_past h g.1
  have hread : (c.past g.1).read? = some ch := by
    rw [read?_eq_head? hposition, hpast, hhead]
  simp only [scan, hskip, hread, lexeme_eq hposition hpast hch.head hends, deliver, past_append]

/-- Behind the last lexeme there is nothing but the end of input. -/
theorem scan_blank (h : 0 ≤ c.position) {g : Gap} (hrest : c.rest = g.1) :
    c.scan = (⟨.eof, "", (c.past g.1).line, (c.past g.1).column⟩, c.past g.1) := by
  have hrest : c.rest = g.1 ++ [] := by rw [hrest, List.append_nil]
  have hskip : c.skipBlanks = c.past g.1 := skipBlanks_eq_past h hrest (by simp)
  have hread : (c.past g.1).read? = none := by
    rw [read?_eq_head? (position_past h g.1), rest_past h hrest]
    rfl
  simp only [scan, hskip, hread, deliver, past_nil, String.ofList_nil]

end Cursor

namespace Lexer

theorem tokens_eq (l : Lexer) :
    l.tokens = if l.next.1.kind = .eof then [l.next.1] else l.next.1 :: l.next.2.tokens := by
  rw [tokens]
  split
  · rename_i hleft
    rw [if_pos]
    exact (Cursor.scan_atEnd l.inReach hleft).1
  · rfl

/-- On a faithful layout the lexer delivers the tokens of the lexemes, each where its lexeme is. -/
theorem tokens_eq_of_faithful {l : Lexer} (h : 0 ≤ l.cursor.position) {layout : Layout}
    (hrest : l.cursor.rest = layout.text) (hfaithful : layout.Faithful) :
    l.tokens = layout.pieces.tokens (l.cursor.past layout.lead.1) := by
  obtain ⟨g, ps⟩ := layout
  induction ps generalizing l g with
  | nil =>
    have hscan := Cursor.scan_blank h (hrest.trans (List.append_nil _))
    have htoken : l.next.1 = ⟨.eof, "", (l.cursor.past g.1).line, (l.cursor.past g.1).column⟩ :=
      congrArg Prod.fst hscan
    rw [tokens_eq, htoken, if_pos rfl]
    rfl
  | cons p ps ih =>
    obtain ⟨hends, hfaithful⟩ := hfaithful
    rw [Layout.text, Pieces.text_cons] at hrest
    have hscan := Cursor.scan_lexeme h hrest hends
    have htoken : l.next.1 = ⟨p.1.kind, String.ofList p.1.text, (l.cursor.past g.1).line,
        (l.cursor.past g.1).column⟩ := congrArg Prod.fst hscan
    have hcursor : l.next.2.cursor = l.cursor.past (g.1 ++ p.1.text) := congrArg Prod.snd hscan
    have hposition : 0 ≤ l.next.2.cursor.position := hcursor ▸ Cursor.position_past h _
    have hbehind : l.next.2.cursor.rest = Layout.text ⟨p.2, ps⟩ := by
      rw [hcursor]
      exact Cursor.rest_past h (hrest.trans (List.append_assoc _ _ _).symm)
    have htokens := ih hposition p.2 hbehind hfaithful
    have hgap : l.next.2.cursor.past p.2.1 = (l.cursor.past g.1).past (p.1.text ++ p.2.1) := by
      rw [hcursor, ← Cursor.past_append, ← Cursor.past_append, List.append_assoc]
    rw [hgap] at htokens
    rw [tokens_eq, htokens, htoken, if_neg p.1.kind_ne_eof, Pieces.tokens]

theorem tokens_of_faithful {l : Lexer} (h : 0 ≤ l.cursor.position) {layout : Layout}
    (hrest : l.cursor.rest = layout.text) (hfaithful : layout.Faithful) :
    ∃ ts e, l.tokens = ts ++ [e] ∧ ts.map Token.spelling = layout.lexemes.map Lexeme.spelling ∧
      e.spelling = (.eof, "") := by
  rw [tokens_eq_of_faithful h hrest hfaithful, Layout.lexemes, List.map_map]
  exact layout.pieces.exists_tokens_eq _

end Lexer

/-- On a faithful layout of a text its tokens are the lexemes in order, and the end of input. -/
theorem tokenize_of_faithful {s : String} {layout : Layout} (htext : layout.text = s.toList)
    (hfaithful : layout.Faithful) :
    ∃ ts e, tokenize s = ts ++ [e] ∧ ts.map Token.spelling = layout.lexemes.map Lexeme.spelling ∧
      e.spelling = (.eof, "") := by
  have hrest : (Lexer.ofString s).cursor.rest = layout.text :=
    (Cursor.rest_ofString s).trans htext.symm
  exact Lexer.tokens_of_faithful (Int.le_refl 0) hrest hfaithful

theorem spellings_of_faithful {s : String} {layout : Layout} (htext : layout.text = s.toList)
    (hfaithful : layout.Faithful) :
    (tokenize s).map Token.spelling = layout.lexemes.map Lexeme.spelling ++ [(.eof, "")] := by
  obtain ⟨ts, e, htokens, hspelling, hend⟩ := tokenize_of_faithful htext hfaithful
  rw [htokens, List.map_append, hspelling, List.map_singleton, hend]

/-- A text that is a lexeme gives one token in front of the end of input. -/
theorem tokenize_lexeme (a : Lexeme) :
    ∃ t e, tokenize (String.ofList a.text) = [t, e] ∧ t.spelling = a.spelling ∧
      e.spelling = (.eof, "") := by
  let none : Gap := ⟨[], by simp⟩
  let layout : Layout := ⟨none, [(a, none)]⟩
  have htext : layout.text = (String.ofList a.text).toList := by
    simp [layout, none, Layout.text]
  have hfaithful : layout.Faithful := ⟨endsBefore_last _, trivial⟩
  obtain ⟨ts, e, htokens, hspelling, hend⟩ := tokenize_of_faithful htext hfaithful
  obtain ⟨t, rfl, ht⟩ := List.map_eq_singleton_iff.mp hspelling
  exact ⟨t, e, htokens, ht, hend⟩

end MonkeySyntax
