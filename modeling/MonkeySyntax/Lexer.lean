import MonkeySyntax.Cursor
import MonkeySyntax.Token.Basic

/-!
# Lexing

A token is the longest word, digit run or operator at the cursor, once blanks are skipped. A
character that starts none of these is a token of its own, of kind `illegal`. At the end of the text
every further token is the end of input.
-/

namespace MonkeySyntax

/-! ## Classes of characters -/

def isBlank (c : Char) : Bool := c == ' ' || c == '\t' || c == '\r' || c == '\n'

/-- The ASCII letters and the underscore. -/
def isLetter (c : Char) : Bool := c == '_' || c.isAlpha

def isWordChar (c : Char) : Bool := isLetter c || c.isDigit

/-- Whether a text counts as a letter: a lone underscore, or ASCII letters only and at least one. -/
def isLetterText (s : String) : Bool :=
  s == "_" || (!s.isEmpty && s.toList.all Char.isAlpha)

namespace Cursor

/-- The cursor before the next character that is no blank. -/
def skipBlanks (c : Cursor) : Cursor := (c.enter.takeWhile isBlank).2

/-- The longest operator or delimiter at the cursor. -/
def operator? (c : Cursor) : Option (TokenKind × List Char) :=
  match c.peek? 0, c.peek? 1 with
  | some a, some b =>
    match TokenKind.ofOperator? [a, b] with
    | some kind => some (kind, [a, b])
    | none => (TokenKind.ofOperator? [a]).map (·, [a])
  | some a, none => (TokenKind.ofOperator? [a]).map (·, [a])
  | none, _ => none

/-- Kind and text of the token that starts with the given character, which stands at the cursor. -/
def lexeme (c : Cursor) (ch : Char) : TokenKind × List Char :=
  if isLetter ch then
    let word := (c.takeWhile isWordChar).1
    ((TokenKind.ofKeyword? word).getD .ident, word)
  else if ch.isDigit then (.int, (c.takeWhile Char.isDigit).1)
  else c.operator?.getD (.illegal, [ch])

/-- The token of a lexeme, and the cursor behind it. -/
def deliver (c : Cursor) (lexeme : TokenKind × List Char) : Token × Cursor :=
  (⟨lexeme.1, String.ofList lexeme.2, c.line, c.column⟩, c.past lexeme.2)

/-- The operator or delimiter at the cursor as a token, and the cursor behind it. -/
def matchOperator? (c : Cursor) : Option (Token × Cursor) := c.operator?.map c.deliver

/-- The next token; the end of input where none can be read. -/
def scan (c : Cursor) : Token × Cursor :=
  let start := c.skipBlanks
  start.deliver (match start.read? with
    | none => (.eof, [])
    | some ch => start.lexeme ch)

/-- Skips blanks, or fails where the cursor is out of reach of the text. -/
def skip? (c : Cursor) : Except ReadFault Cursor :=
  if c.InReach then .ok c.skipBlanks else .error .beforeText

/-- The next token, or the failure to skip up to it. -/
def token? (c : Cursor) : Except ReadFault (Token × Cursor) :=
  if c.InReach then .ok c.scan else .error .beforeText

theorem skipBlanks_left_le (c : Cursor) : c.skipBlanks.left ≤ c.left :=
  Nat.le_trans (takeWhile_left_le _ _) (enter_left_le c)

theorem skipBlanks_inReach {c : Cursor} (h : c.InReach) : c.skipBlanks.InReach :=
  takeWhile_inReach _ (enter_inReach h)

theorem operator?_ne_nil {c : Cursor} {kind : TokenKind} {text : List Char}
    (h : c.operator? = some (kind, text)) : text ≠ [] := by
  unfold operator? at h
  split at h
  · split at h
    · cases h; simp
    · obtain ⟨k, _, h⟩ := Option.map_eq_some_iff.mp h
      cases h; simp
  · obtain ⟨k, _, h⟩ := Option.map_eq_some_iff.mp h
    cases h; simp
  · cases h

theorem lexeme_ne_nil {c : Cursor} {ch : Char} (h : c.read? = some ch) :
    (c.lexeme ch).2 ≠ [] := by
  unfold lexeme
  split
  · rename_i hl
    exact takeWhile_ne_nil h (by simp [isWordChar, hl])
  · split
    · rename_i hd
      exact takeWhile_ne_nil h hd
    · cases ho : c.operator? with
      | none => simp
      | some r => exact operator?_ne_nil ho

theorem scan_inReach {c : Cursor} (h : c.InReach) : c.scan.2.InReach :=
  past_inReach (skipBlanks_inReach h) _

/-- Every token but the end of input takes at least one character. -/
theorem scan_left_lt {c : Cursor} (h : c.InReach) (hl : c.left ≠ 0) : c.scan.2.left < c.left := by
  have hle := c.skipBlanks_left_le
  have hs := skipBlanks_inReach h
  simp only [scan, deliver, left_past]
  cases hr : c.skipBlanks.read? with
  | none =>
    have := left_eq_zero_iff.mpr ((read?_eq_none_iff hs).mp hr)
    simp only
    omega
  | some ch =>
    have hpos := List.length_pos_iff.mpr (lexeme_ne_nil hr)
    simp only
    omega

theorem scan_atEnd {c : Cursor} (h : c.InReach) (hl : c.left = 0) :
    c.scan.1.kind = .eof ∧ c.scan.2.left = 0 := by
  have hle := c.skipBlanks_left_le
  have hs : c.skipBlanks.left = 0 := by omega
  have hr := (read?_eq_none_iff (skipBlanks_inReach h)).mpr (left_eq_zero_iff.mp hs)
  simp [scan, deliver, hr, hs]

end Cursor

/-! ## The lexer as a source of tokens -/

/-- A cursor from which every token can be read. -/
structure Lexer where
  cursor : Cursor
  inReach : cursor.InReach

namespace Lexer

/-- A cursor too far before its text fails at the first character that it would skip. -/
def ofCursor (c : Cursor) : Except ReadFault Lexer :=
  if h : c.InReach then .ok ⟨c, h⟩ else .error .beforeText

def ofString (s : String) : Lexer := ⟨Cursor.ofString s, by simp [Cursor.ofString, Cursor.InReach]⟩

def next (l : Lexer) : Token × Lexer :=
  let r := l.cursor.scan
  (r.1, ⟨r.2, Cursor.scan_inReach l.inReach⟩)

instance : TokenSource Lexer where
  pull := next
  remaining l := l.cursor.left
  notice t :=
    if t.kind = .illegal then some (.illegalCharacter t.literal t.line t.col) else none
  diagnostic?_notice t e h := by
    split at h
    · cases h
      rfl
    · cases h
  remaining_pull_lt l h := Cursor.scan_left_lt l.inReach h
  exhausted l h := Cursor.scan_atEnd l.inReach h

/-- All tokens up to and including the end of input. -/
def tokens (l : Lexer) : List Token :=
  if _h : l.cursor.left = 0 then [l.next.1]
  else if l.next.1.kind = .eof then [l.next.1]
  else l.next.1 :: l.next.2.tokens
termination_by l.cursor.left
decreasing_by exact Cursor.scan_left_lt l.inReach _h

end Lexer

/-- All tokens of a source text up to and including the end of input. -/
def tokenize (s : String) : List Token := (Lexer.ofString s).tokens

end MonkeySyntax
