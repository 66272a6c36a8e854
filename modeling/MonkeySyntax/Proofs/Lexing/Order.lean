import Mathlib.Data.Prod.Lex
import MonkeySyntax.Proofs.Parser.Delivery

/-!
# The order of tokens in a source

A location is a line with a column, and locations are ordered as they are read: by lines first.
Every character that is read moves a cursor forward, over line ends as well. The main statement is
that the tokens of a lexer stand one behind the other.
-/

namespace MonkeySyntax

/-- A line and a column, the line counting first. -/
abbrev Location := Lex (Int × Int)

def Cursor.location (c : Cursor) : Location := toLex (c.line, c.column)

def Token.location (t : Token) : Location := toLex (t.line, t.col)

namespace Cursor

theorem location_lt_step (c : Cursor) (ch : Char) : c.location < (c.step ch).location := by
  rw [location, location, Prod.Lex.toLex_lt_toLex]
  by_cases hline : ch = '\n'
  · left
    simp only [step, if_pos hline]
    omega
  · right
    simp only [step, if_neg hline]
    constructor
    · trivial
    · omega

theorem location_le_past (c : Cursor) (cs : List Char) : c.location ≤ (c.past cs).location := by
  induction cs generalizing c with
  | nil => exact le_refl _
  | cons ch cs ih => exact le_trans (le_of_lt (c.location_lt_step ch)) (ih (c.step ch))

theorem location_lt_past (c : Cursor) {cs : List Char} (h : cs ≠ []) :
    c.location < (c.past cs).location := by
  cases cs with
  | nil => exact absurd rfl h
  | cons ch cs => exact lt_of_lt_of_le (c.location_lt_step ch) ((c.step ch).location_le_past cs)

theorem location_le_enter (c : Cursor) : c.location ≤ c.enter.location := by
  fun_induction enter c with
  | case1 | case3 => exact le_refl _
  | case2 c _ ch h ih => exact le_trans (le_of_lt (c.location_lt_step ch)) ih

theorem location_le_skipBlanks (c : Cursor) : c.location ≤ c.skipBlanks.location := by
  rw [skipBlanks, takeWhile_past]
  exact le_trans c.location_le_enter (location_le_past _ _)

/-- A token starts where the blanks end. -/
theorem location_scan (c : Cursor) : c.scan.1.location = c.skipBlanks.location := rfl

/-- Behind a token the cursor has moved on, unless it is the end of input. -/
theorem location_scan_lt {c : Cursor} (h : c.scan.1.kind ≠ .eof) :
    c.scan.1.location < c.scan.2.location := by
  rw [location_scan]
  cases hread : c.skipBlanks.read? with
  | none =>
    simp only [scan, deliver, hread] at h
    exact absurd rfl h
  | some ch =>
    simp only [scan, deliver, hread]
    exact location_lt_past _ (lexeme_ne_nil hread)

end Cursor

/-- The tokens of a lexer stand at its cursor or behind it, each one behind those before it. -/
theorem Lexer.locations_tokens (l : Lexer) :
    (∀ t ∈ l.tokens, l.cursor.location ≤ t.location) ∧
      l.tokens.Pairwise fun t u => t.location < u.location := by
  have hfirst (l : Lexer) : l.cursor.location ≤ l.next.1.location := l.cursor.location_le_skipBlanks
  fun_induction tokens l with
  | case1 l | case2 l =>
    constructor
    · simpa using hfirst l
    · exact List.pairwise_singleton _ _
  | case3 l _ heof ih =>
    obtain ⟨hbehind, hrest⟩ := ih
    have hnext : l.next.1.location < l.next.2.cursor.location := Cursor.location_scan_lt heof
    constructor
    · intro t ht
      rcases List.mem_cons.mp ht with rfl | ht
      · exact hfirst l
      · exact le_trans (hfirst l) (le_trans (le_of_lt hnext) (hbehind t ht))
    · apply List.pairwise_cons.mpr
      exact ⟨fun t ht => lt_of_lt_of_le hnext (hbehind t ht), hrest⟩

end MonkeySyntax
