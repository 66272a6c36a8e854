import MonkeySyntax.Proofs.Lexing.Loops

/-!
# Lexing from any start

A lexer may be started anywhere in its text, behind it, or as far before it as the text is long, and
at any line and column. It delivers finitely many tokens and then one end of input for ever. What it
delivers depends on the characters in front of it alone, and on the line and column to count from;
characters that it reads before the text move only these.
-/

namespace MonkeySyntax.Cursor

open Lexing

variable {c d : Cursor} {ts : List Token} {e : Token}

/-- In front of a cursor are blanks, and a lexeme that could not be longer or nothing more. -/
theorem rest_cases (c : Cursor) :
    (∃ g : Gap, c.rest = g.1) ∨
      ∃ (g : Gap) (a : Lexeme) (next : List Char), c.rest = g.1 ++ (a.text ++ next) ∧
        a.EndsBefore next := by
  obtain ⟨⟨g, pieces⟩, htext, hfaithful⟩ := exists_layout c.rest
  cases pieces with
  | nil => exact Or.inl ⟨g, htext.symm.trans (List.append_nil _)⟩
  | cons p ps =>
    obtain ⟨hends, -⟩ := hfaithful
    right
    refine ⟨g, p.1, p.2.1 ++ Pieces.text ps, ?_, hends⟩
    rw [← Pieces.text_cons]
    exact htext.symm

/-! ## Calls -/

theorem readTokens_succ (h : c.InReach) (n : Nat) :
    c.readTokens (n + 1) = (c.scan.2.readTokens n).map fun ts => c.scan.1 :: ts := by
  rw [readTokens, readToken_eq_token?, token?, if_pos h]

/-- Any number of calls answer: the tokens in their order first, and then the other one for ever. -/
def Serves (c : Cursor) (ts : List Token) (e : Token) : Prop :=
  ∀ n, c.readTokens n = .ok ((List.range n).map fun i => ts.getD i e)

namespace Serves

/-- A call puts its token in front of those of the calls behind it. -/
theorem cons {t : Token} (h : c.InReach) (hscan : c.scan = (t, d)) (hbehind : d.Serves ts e) :
    c.Serves (t :: ts) e := by
  rintro (_ | n)
  · rfl
  · rw [readTokens_succ h, hscan, hbehind n, List.range_succ_eq_map, List.map_cons, List.map_map]
    rfl

theorem of_singleton (h : c.Serves [e] e) : c.Serves [] e := by
  intro n
  rw [h n]
  congr 1
  apply List.map_congr_left
  intro i _
  cases i <;> rfl

/-- Where nothing is left to read, every call answers the end of input at the same place. -/
theorem of_rest_nil (h : 0 ≤ c.position) (hrest : c.rest = []) :
    c.Serves [] ⟨.eof, "", c.line, c.column⟩ := by
  let none : Gap := ⟨[], by simp⟩
  have hscan : c.scan = (⟨.eof, "", c.line, c.column⟩, c) := scan_blank h (g := none) hrest
  intro n
  induction n with
  | zero => rfl
  | succ n ih =>
    rw [readTokens_succ (inReach_of_nonneg h), hscan, ih, List.range_succ_eq_map, List.map_cons,
      List.map_map]
    rfl

end Serves

/-- There are at most as many tokens as characters, and behind them one end of input. -/
theorem exists_serves (h : 0 ≤ c.position) :
    ∃ (ts : List Token) (line column : Int), ts.length ≤ c.rest.length ∧
      (∀ t ∈ ts, t.kind ≠ .eof) ∧ c.Serves ts ⟨.eof, "", line, column⟩ := by
  -- on the characters in front, of which every token takes one or more
  induction hlength : c.rest.length using Nat.strongRecOn generalizing c with
  | ind k ih =>
    subst hlength
    have hreach := inReach_of_nonneg h
    rcases c.rest_cases with ⟨g, hrest⟩ | ⟨g, a, next, hrest, hends⟩
    · have hnil : (c.past g.1).rest = [] := rest_past h (hrest.trans (List.append_nil _).symm)
      have hlast := Serves.of_rest_nil (position_past h g.1) hnil
      have hserves := hlast.cons hreach (scan_blank h hrest)
      exact ⟨[], _, _, Nat.zero_le _, by simp, hserves.of_singleton⟩
    · have hbehind : (c.past (g.1 ++ a.text)).rest = next :=
        rest_past h (hrest.trans (List.append_assoc _ _ _).symm)
      have hshorter : next.length + 1 ≤ c.rest.length := by
        have hpos := List.length_pos_iff.mpr a.text_ne_nil
        rw [hrest, List.length_append, List.length_append]
        omega
      obtain ⟨ts, line, column, hle, hts, hserves⟩ :=
        ih _ hshorter (position_past h (g.1 ++ a.text)) (congrArg List.length hbehind)
      refine ⟨_ :: ts, line, column, ?_, ?_, hserves.cons hreach (scan_lexeme h hrest hends)⟩
      · rw [List.length_cons]
        omega
      · exact List.forall_mem_cons.mpr ⟨a.kind_ne_eof, hts⟩

/-! ## What the tokens depend on -/

/-- The cursors have the same characters in front, and they are at the same line and column; the
texts that they stand in, and where, may differ. -/
structure Alike (c d : Cursor) : Prop where
  left_nonneg : 0 ≤ c.position
  right_nonneg : 0 ≤ d.position
  rest : c.rest = d.rest
  line : c.line = d.line
  column : c.column = d.column

namespace Alike

theorem past (h : Alike c d) {cs next : List Char} (hrest : c.rest = cs ++ next) :
    Alike (c.past cs) (d.past cs) where
  left_nonneg := position_past h.left_nonneg cs
  right_nonneg := position_past h.right_nonneg cs
  rest := by
    have hright : d.rest = cs ++ next := h.rest.symm.trans hrest
    rw [rest_past h.left_nonneg hrest, rest_past h.right_nonneg hright]
  line := by rw [line_past, line_past, h.line]
  column := by simp only [column_past, h.column]

/-- The same token is scanned at both, and what is behind it looks the same again. -/
theorem scan (h : Alike c d) : c.scan.1 = d.scan.1 ∧ Alike c.scan.2 d.scan.2 := by
  rcases c.rest_cases with ⟨g, hrest⟩ | ⟨g, a, next, hrest, hends⟩
  · have hstart : Alike (c.past g.1) (d.past g.1) := h.past (hrest.trans (List.append_nil _).symm)
    rw [scan_blank h.left_nonneg hrest, scan_blank h.right_nonneg (h.rest.symm.trans hrest),
      hstart.line, hstart.column]
    exact ⟨rfl, hstart⟩
  · have hstart : Alike (c.past g.1) (d.past g.1) := h.past hrest
    have hbehind : Alike (c.past (g.1 ++ a.text)) (d.past (g.1 ++ a.text)) :=
      h.past (hrest.trans (List.append_assoc _ _ _).symm)
    rw [scan_lexeme h.left_nonneg hrest hends,
      scan_lexeme h.right_nonneg (h.rest.symm.trans hrest) hends, hstart.line, hstart.column]
    exact ⟨rfl, hbehind⟩

theorem readTokens (h : Alike c d) (n : Nat) : c.readTokens n = d.readTokens n := by
  induction n generalizing c d with
  | zero => rfl
  | succ n ih =>
    obtain ⟨htoken, hbehind⟩ := h.scan
    rw [readTokens_succ (inReach_of_nonneg h.left_nonneg),
      readTokens_succ (inReach_of_nonneg h.right_nonneg), htoken, ih hbehind]

end Alike

/-! ## Before the text -/

/-- The last characters of the text, which a cursor before it reads first. -/
def lastChars (c : Cursor) : List Char := c.text.toList.drop (c.text.size + c.position).toNat

theorem lastChars_eq_cons {ch : Char} (h : c.InReach) (hneg : c.position < 0)
    (hread : c.read? = some ch) : c.lastChars = ch :: (c.step ch).lastChars := by
  simp only [InReach] at h
  have hnext : (c.text.size + (c.position + 1)).toNat = (c.text.size + c.position).toNat + 1 := by
    omega
  rw [read?, if_neg (by omega), if_pos (by omega), ← Array.getElem?_toList] at hread
  obtain ⟨hlt, hch⟩ := List.getElem?_eq_some_iff.mp hread
  rw [lastChars, lastChars, step_text, step_position, hnext, List.drop_eq_getElem_cons hlt, hch]

/-- The cursor comes to the start of the text over the last characters of it. -/
theorem enter_eq_past (h : c.InReach) (hle : c.position ≤ 0) : c.enter = c.past c.lastChars := by
  fun_induction enter c with
  | case1 c hneg hread => exact absurd hread (read?_ne_none_of_neg h hneg)
  | case2 c hneg ch hread ih =>
    have hstep : (c.step ch).position ≤ 0 := by
      rw [step_position]
      omega
    rw [ih (inReach_step h ch) hstep, lastChars_eq_cons h hneg hread, past_cons]
  | case3 c hpos =>
    have hnone : c.lastChars = [] := by
      apply List.drop_of_length_le
      rw [Array.length_toList]
      omega
    rw [hnone, past_nil]

/-- The start of the text, at the line and column reached over the last characters of it. -/
theorem enter_eq_start (h : c.InReach) (hle : c.position ≤ 0) :
    c.enter = ⟨c.text, 0, (c.past c.lastChars).line, (c.past c.lastChars).column⟩ := by
  have hposition : (c.past c.lastChars).position = 0 := by
    simp only [InReach] at h
    rw [past_position, lastChars, List.length_drop, Array.length_toList]
    omega
  rw [enter_eq_past h hle, ← hposition, ← past_text c c.lastChars]

theorem scan_enter (h : c.InReach) : c.enter.scan = c.scan := by
  have hskip : c.enter.skipBlanks = c.skipBlanks := by
    rw [skipBlanks, enter_of_nonneg (enter_nonneg h), skipBlanks]
  rw [scan, scan, hskip]

theorem readTokens_enter (h : c.InReach) (n : Nat) : c.enter.readTokens n = c.readTokens n := by
  cases n with
  | zero => rfl
  | succ n => rw [readTokens_succ (enter_inReach h), readTokens_succ h, scan_enter h]

/-! ## Any start -/

theorem length_rest_le (c : Cursor) : c.rest.length ≤ c.text.size := by
  rw [rest, List.length_drop, Array.length_toList]
  omega

theorem exists_serves_of_inReach (h : c.InReach) :
    ∃ (ts : List Token) (line column : Int), ts.length ≤ c.text.size ∧
      (∀ t ∈ ts, t.kind ≠ .eof) ∧ c.Serves ts ⟨.eof, "", line, column⟩ := by
  obtain ⟨ts, line, column, hle, hts, hserves⟩ := exists_serves (enter_nonneg h)
  have htext : c.enter.text = c.text := by
    rcases Int.lt_or_le c.position 0 with hneg | hpos
    · rw [enter_eq_start h (Int.le_of_lt hneg)]
    · rw [enter_of_nonneg hpos]
  have hlength := c.enter.length_rest_le
  rw [htext] at hlength
  refine ⟨ts, line, column, Nat.le_trans hle hlength, hts, ?_⟩
  intro n
  rw [← readTokens_enter h, hserves n]

/-- From any position that is not too far before a text, at any line and column, every call answers:
at most as many tokens as the text has characters, and then one end of input for ever. From inside
the text or behind it they are the tokens of what is left of the text, as a text of its own; from
before it, those of the whole text from the line and column to which its last characters lead. And
each call, taken step by step, is the one that is scanned. -/
theorem readTokens_from_anywhere {s : String} {position : Int} (line column : Int)
    (h : -(s.length : Int) ≤ position) :
    let text := s.toList.toArray
    let start : Cursor := ⟨text, position, line, column⟩
    (∃ (ts : List Token) (l k : Int), ts.length ≤ s.length ∧ (∀ t ∈ ts, t.kind ≠ .eof) ∧
      ∀ n, start.readTokens n = .ok ((List.range n).map fun i => ts.getD i ⟨.eof, "", l, k⟩)) ∧
    (0 ≤ position → ∀ n, start.readTokens n =
      (Cursor.mk (s.toList.drop position.toNat).toArray 0 line column).readTokens n) ∧
    (position < 0 →
      let behind := start.past (s.toList.drop (s.length - (-position).toNat))
      ∀ n, start.readTokens n = (Cursor.mk text 0 behind.line behind.column).readTokens n) ∧
    ∀ c : Cursor, c.readToken = c.token? := by
  intro text start
  have hsize : text.size = s.length := by
    rw [List.size_toArray, String.length_toList]
  have hreach : start.InReach := by
    simp only [InReach, start, hsize]
    exact h
  refine ⟨?_, ?_, ?_, readToken_eq_token?⟩
  · obtain ⟨ts, l, k, hle, hts, hserves⟩ := exists_serves_of_inReach hreach
    exact ⟨ts, l, k, hsize ▸ hle, hts, hserves⟩
  · intro hpos n
    have hrest : start.rest =
        (Cursor.mk (s.toList.drop position.toNat).toArray 0 line column).rest := by
      simp [rest, start, text]
    exact Alike.readTokens ⟨hpos, Int.le_refl 0, hrest, rfl, rfl⟩ n
  · intro hneg behind n
    have hlast : start.lastChars = s.toList.drop (s.length - (-position).toNat) := by
      have hskip : (text.size + position).toNat = s.length - (-position).toNat := by omega
      rw [lastChars, hskip]
    have hstart := enter_eq_start hreach (Int.le_of_lt hneg)
    rw [← readTokens_enter hreach, hstart, hlast]

/-- Three characters before the text `a`, line feed, `12`: its last three are read first, over the
line feed, and then all four. -/
theorem readTokens_from_anywhere_beforeText :
    let text := "a\n12".toList.toArray
    let start : Cursor := ⟨text, -3, 1, 1⟩
    (-("a\n12".length : Int) ≤ -3) ∧
      (∀ n, start.readTokens n = (Cursor.mk text 0 2 3).readTokens n) ∧
      start.readTokens 4 = .ok [⟨.ident, "a", 2, 3⟩, ⟨.int, "12", 3, 1⟩, ⟨.eof, "", 3, 3⟩,
        ⟨.eof, "", 3, 3⟩] := by
  have hreach : -("a\n12".length : Int) ≤ -3 := by decide
  have hfour : (Cursor.mk "a\n12".toList.toArray (-3) 1 1).readTokens 4 =
      .ok [⟨.ident, "a", 2, 3⟩, ⟨.int, "12", 3, 1⟩, ⟨.eof, "", 3, 3⟩, ⟨.eof, "", 3, 3⟩] := by
    decide +kernel
  obtain ⟨-, -, hbefore, -⟩ := readTokens_from_anywhere 1 1 hreach
  have hlast : (Cursor.mk "a\n12".toList.toArray (-3) 1 1).past
      ("a\n12".toList.drop ("a\n12".length - (- -3 : Int).toNat)) =
        ⟨"a\n12".toList.toArray, 0, 2, 3⟩ := by decide
  refine ⟨hreach, ?_, hfour⟩
  intro n
  have hstart := hbefore (by decide) n
  simp only [hlast] at hstart
  exact hstart

end MonkeySyntax.Cursor
