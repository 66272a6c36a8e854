import MonkeySyntax.Lexer

/-!
# Lexing by loops

The lexer as loops over three things that a cursor can do: take a step, look ahead, and tell whether
the text is at its end. Every step may fail, and then the call fails that made it. Where nothing
shows ahead, what stands there counts as any character that a loop goes on with; so before the text,
where a step still reads from its end, every loop goes on.
-/

namespace MonkeySyntax.Cursor

theorem left_lt_of_next {c d : Cursor} {ch : Char} (h : c.next = .ok (ch, d)) :
    d.left < c.left := by
  unfold next at h
  split at h
  · rename_i hread
    cases h
    exact left_step_lt hread
  · cases h

/-- Takes steps for as long as the text goes on and no other character shows ahead. -/
def readWhile (accept : Char → Bool) (c : Cursor) : Except ReadFault (List Char × Cursor) :=
  if c.atEnd then .ok ([], c)
  else if (c.peek? 0).all accept then
    match _h : c.next with
    | .error e => .error e
    | .ok (ch, d) => (d.readWhile accept).map fun (cs, e) => (ch :: cs, e)
  else .ok ([], c)
termination_by c.left
decreasing_by exact left_lt_of_next _h

/-- Takes a number of steps. -/
def readOver (c : Cursor) : Nat → Except ReadFault Cursor
  | 0 => .ok c
  | n + 1 =>
    match c.next with
    | .error e => .error e
    | .ok (_, d) => d.readOver n

/-- Reads the lexeme at the cursor; the end of input where the text ends. -/
def readLexeme (c : Cursor) : Except ReadFault ((TokenKind × List Char) × Cursor) :=
  if c.atEnd then .ok ((.eof, []), c)
  else if (c.peek? 0).any isLetter then
    (c.readWhile isWordChar).map fun (word, d) =>
      (((TokenKind.ofKeyword? word).getD .ident, word), d)
  else if (c.peek? 0).all Char.isDigit then
    (c.readWhile Char.isDigit).map fun (digits, d) => ((.int, digits), d)
  else
    match c.operator? with
    | some lexeme => (c.readOver lexeme.2.length).map fun d => (lexeme, d)
    | none => c.next.map fun (ch, d) => ((.illegal, [ch]), d)

/-- Reads over blanks and then the lexeme behind them, whose token stands where it starts. -/
def readToken (c : Cursor) : Except ReadFault (Token × Cursor) :=
  match c.readWhile isBlank with
  | .error e => .error e
  | .ok (_, start) =>
    start.readLexeme.map fun (lexeme, behind) =>
      (⟨lexeme.1, String.ofList lexeme.2, start.line, start.column⟩, behind)

/-- The tokens of so many calls; a call that fails ends them with its fault. -/
def readTokens (c : Cursor) : Nat → Except ReadFault (List Token)
  | 0 => .ok []
  | n + 1 =>
    match c.readToken with
    | .error e => .error e
    | .ok (t, d) => (d.readTokens n).map fun ts => t :: ts

end MonkeySyntax.Cursor
