import MonkeySyntax.Lexer.Loops
import MonkeySyntax.Proofs.Lexing.Coordinates

/-!
# The loops of a lexer

Each loop of the lexer stops, and no step that it takes fails, unless the cursor is so far before
its text that it cannot take a single one. Inside the text a loop takes exactly the characters that
it accepts, and before it whatever there is, up to the start. The main statement is that the loops
read the token that is scanned at the cursor, wherever that stands.
-/

namespace MonkeySyntax.Cursor

variable {c : Cursor} {accept : Char → Bool}

theorem inReach_of_nonneg (h : 0 ≤ c.position) : c.InReach := by
  simp only [InReach]
  omega

theorem atEnd_eq_false {ch : Char} (h : c.read? = some ch) : c.atEnd = false := by
  have hlt := position_lt_of_read? h
  simp only [atEnd, decide_eq_false_iff_not]
  omega

theorem peek?_zero (h : 0 ≤ c.position) : c.peek? 0 = c.read? := by
  have hpeek : c.peek? 0 = c.rest[0]? := peek?_eq_getElem? h 0
  rw [hpeek, read?_eq_head? h, List.head?_eq_getElem?]

/-- Before the text nothing shows ahead. -/
theorem peek?_of_neg (h : c.position < 0) : c.peek? 0 = none := by
  rw [peek?, if_pos (by omega)]

/-- There a step still reads something, from the end of the text. -/
theorem read?_ne_none_of_neg (h : c.InReach) (hneg : c.position < 0) : c.read? ≠ none := by
  intro hread
  have hend := (read?_eq_none_iff h).mp hread
  simp only [atEnd, decide_eq_true_eq] at hend
  omega

theorem readWhile_step {ch : Char} (hread : c.read? = some ch)
    (hgoes : (c.peek? 0).all accept) :
    c.readWhile accept =
      ((c.step ch).readWhile accept).map fun (cs, e) => (ch :: cs, e) := by
  rw [readWhile, if_neg (by simp [atEnd_eq_false hread]), if_pos hgoes]
  split <;> rename_i hnext <;> rw [next_eq_ok hread] at hnext <;> cases hnext
  rfl

/-! ## Inside the text -/

theorem readWhile_eq_takeWhile (h : 0 ≤ c.position) :
    c.readWhile accept = .ok (c.takeWhile accept) := by
  fun_induction takeWhile accept c with
  | case1 c hread =>
    have hend := (read?_eq_none_iff (inReach_of_nonneg h)).mp hread
    rw [readWhile, if_pos hend]
  | case2 c ch hread haccept cs d heq ih =>
    have hstep : 0 ≤ (c.step ch).position := c.position_past h [ch]
    have hgoes : (c.peek? 0).all accept := by
      rw [peek?_zero h, hread]
      exact haccept
    rw [readWhile_step hread hgoes, ih hstep, heq]
    rfl
  | case3 c ch hread haccept =>
    have hstops : ¬ (c.peek? 0).all accept := by
      rw [peek?_zero h, hread]
      exact haccept
    rw [readWhile, if_neg (by simp [atEnd_eq_false hread]), if_neg hstops]

theorem readOver_eq_past (h : 0 ≤ c.position) {cs next : List Char} (hrest : c.rest = cs ++ next) :
    c.readOver cs.length = .ok (c.past cs) := by
  induction cs generalizing c with
  | nil => rfl
  | cons ch cs ih =>
    have hstep : 0 ≤ (c.step ch).position := c.position_past h [ch]
    have hread : c.read? = some ch := by
      rw [read?_eq_head? h, hrest]
      rfl
    have hbehind : (c.past [ch]).rest = cs ++ next := rest_past h hrest
    rw [List.length_cons, readOver, next_eq_ok hread]
    exact ih hstep hbehind

/-- An operator is found in what is ahead. -/
theorem operator?_prefix (h : 0 ≤ c.position) {lexeme : TokenKind × List Char}
    (hoperator : c.operator? = some lexeme) : lexeme.2 <+: c.rest := by
  have hfirst : c.peek? 0 = c.rest[0]? := peek?_eq_getElem? h 0
  have hsecond : c.peek? 1 = c.rest[1]? := peek?_eq_getElem? h 1
  unfold operator? at hoperator
  rw [hfirst, hsecond] at hoperator
  rcases hrest : c.rest with _ | ⟨a, _ | ⟨b, next⟩⟩
  · simp [hrest] at hoperator
  · obtain ⟨k, -, rfl⟩ : ∃ k, TokenKind.ofOperator? [a] = some k ∧ (k, [a]) = lexeme := by
      simpa [hrest] using hoperator
    exact List.prefix_refl _
  · simp only [hrest, List.getElem?_cons_zero, List.getElem?_cons_succ] at hoperator
    split at hoperator
    · obtain rfl := Option.some.inj hoperator
      exact ⟨next, rfl⟩
    · obtain ⟨k, -, rfl⟩ := Option.map_eq_some_iff.mp hoperator
      exact ⟨b :: next, rfl⟩

/-- The lexeme at the cursor is read, and no step fails. -/
theorem readLexeme_eq (h : 0 ≤ c.position) :
    c.readLexeme =
      let lexeme := match c.read? with
        | none => (.eof, [])
        | some ch => c.lexeme ch
      .ok (lexeme, c.past lexeme.2) := by
  cases hread : c.read? with
  | none =>
    have hend := (read?_eq_none_iff (inReach_of_nonneg h)).mp hread
    rw [readLexeme, if_pos hend]
    rfl
  | some ch =>
    have hahead : c.peek? 0 = some ch := (peek?_zero h).trans hread
    rw [readLexeme, if_neg (by simp [atEnd_eq_false hread]), hahead]
    by_cases hletter : isLetter ch
    · simp only [Option.any_some, lexeme, hletter, if_true, readWhile_eq_takeWhile h,
        takeWhile_past, Except.map]
    · by_cases hdigit : ch.isDigit
      · simp only [Option.any_some, Option.all_some, lexeme, hletter, hdigit, if_true,
          readWhile_eq_takeWhile h, takeWhile_past, Except.map]
        rfl
      · simp only [Option.any_some, Option.all_some, lexeme, hletter, hdigit]
        cases hoperator : c.operator? with
        | none => simp [next_eq_ok hread, Except.map]
        | some lexeme =>
          obtain ⟨next, hnext⟩ := operator?_prefix h hoperator
          simp [readOver_eq_past h hnext.symm, Except.map]

/-! ## Before the text -/

theorem enter_of_nonneg (h : 0 ≤ c.position) : c.enter = c := by
  rw [enter, if_neg (by omega)]

theorem enter_nonneg (h : c.InReach) : 0 ≤ c.enter.position := by
  fun_induction enter c with
  | case1 c hneg hread => exact absurd hread (read?_ne_none_of_neg h hneg)
  | case2 c _ ch hread ih => exact ih (inReach_step h ch)
  | case3 c hpos => omega

/-- Up to the start every loop goes on, whatever it accepts. -/
theorem readWhile_eq_enter (h : c.InReach) :
    (c.readWhile accept).map Prod.snd = .ok (c.enter.takeWhile accept).2 := by
  fun_induction enter c with
  | case1 c hneg hread => exact absurd hread (read?_ne_none_of_neg h hneg)
  | case2 c hneg ch hread ih =>
    have hgoes : (c.peek? 0).all accept := by
      rw [peek?_of_neg hneg]
      rfl
    rw [readWhile_step hread hgoes, ← ih (inReach_step h ch)]
    cases (c.step ch).readWhile accept <;> rfl
  | case3 c hpos =>
    rw [readWhile_eq_takeWhile (by omega)]
    rfl

theorem readWhile_eq_error (h : ¬ c.InReach) : c.readWhile accept = .error .beforeText := by
  simp only [InReach] at h
  have hread : c.read? = none := by
    rw [read?, if_neg (by omega), if_neg (by omega)]
  have hend : c.atEnd = false := by
    simp only [atEnd, decide_eq_false_iff_not]
    omega
  have hgoes : (c.peek? 0).all accept := by
    rw [peek?_of_neg (by omega)]
    rfl
  have hnext : c.next = .error .beforeText := by
    simp [next, hread, hend]
  rw [readWhile, if_neg (by simp [hend]), if_pos hgoes]
  split <;> rename_i hfault <;> rw [hnext] at hfault <;> cases hfault
  rfl

/-! ## Tokens -/

/-- The loops read the token that is scanned, and they fail where nothing can be skipped. -/
theorem readToken_eq_token? (c : Cursor) : c.readToken = c.token? := by
  by_cases h : c.InReach
  · have hskip : (c.readWhile isBlank).map Prod.snd = .ok c.skipBlanks := readWhile_eq_enter h
    have hstart : 0 ≤ c.skipBlanks.position := takeWhile_position (enter_nonneg h)
    rw [token?, if_pos h, readToken]
    rcases hread : c.readWhile isBlank with e | ⟨blanks, start⟩
    · rw [hread] at hskip
      cases hskip
    · rw [hread] at hskip
      obtain rfl : start = c.skipBlanks := Except.ok.inj hskip
      simp only [readLexeme_eq hstart]
      rfl
  · rw [token?, if_neg h, readToken, readWhile_eq_error h]

end MonkeySyntax.Cursor
