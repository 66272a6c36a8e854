import MonkeySyntax.Ast.Basic
import MonkeySyntax.Numeral
import MonkeySyntax.Token.Kind
import MonkeySyntax.Token.Basic

/-!
# The state of a parser

A parser sees two consecutive tokens of its source, the current one and the next. It advances by one
token at a time and keeps a log. The main statement is that its weight, which counts what it may
still see, drops with every advance until nothing but the end of input is in sight.
-/

namespace MonkeySyntax

structure Parser (σ : Type) where
  source : σ
  cur : Token
  peek : Token
  /-- How many tokens were taken from the source. -/
  pulled : Nat
  /-- The log, newest entry first. -/
  entries : List LogEntry

/-- Why a parse breaks off. -/
inductive Fault where
  | overlong (numeral : OverlongNumeral)
  /-- A unary operator was demanded where neither an operator nor an operand stands. -/
  | missingOperand
deriving DecidableEq, Repr

namespace Fault

def message : Fault → String
  | overlong n => n.message
  | missingOperand => ""

end Fault

/-- What a parsing step comes to, and the state in which it leaves the parser. -/
abbrev Step (σ α : Type) := Except Fault α × Parser σ

namespace Step

variable {σ α β : Type}

/-- Goes on from a result; a fault ends the parse in the state where it occurred. -/
def andThen (s : Step σ α) (f : α → Parser σ → Step σ β) : Step σ β :=
  match s with
  | (.ok a, p) => f a p
  | (.error e, p) => (.error e, p)

def map (f : α → β) (s : Step σ α) : Step σ β := (s.1.map f, s.2)

@[simp] theorem andThen_ok (a : α) (p : Parser σ) (f : α → Parser σ → Step σ β) :
    andThen (.ok a, p) f = f a p := rfl

@[simp] theorem andThen_error (e : Fault) (p : Parser σ) (f : α → Parser σ → Step σ β) :
    andThen (.error e, p) f = (.error e, p) := rfl

@[simp] theorem map_ok (f : α → β) (a : α) (p : Parser σ) :
    map f (.ok a, p) = (.ok (f a), p) := rfl

@[simp] theorem map_snd (f : α → β) (s : Step σ α) : (s.map f).2 = s.2 := rfl

theorem map_id (s : Step σ α) : s.map id = s := by
  obtain ⟨_ | a, p⟩ := s <;> rfl

theorem map_map {γ : Type} (f : α → β) (g : β → γ) (s : Step σ α) :
    (s.map f).map g = s.map fun a => g (f a) := by
  obtain ⟨_ | a, p⟩ := s <;> rfl

end Step

namespace Parser

variable {σ : Type}

def curIs (p : Parser σ) (kind : TokenKind) : Bool := p.cur.kind == kind

def peekIs (p : Parser σ) (kind : TokenKind) : Bool := p.peek.kind == kind

def note (p : Parser σ) (e : LogEntry) : Parser σ := { p with entries := e :: p.entries }

/-- Records a diagnostic at the position of the current token. -/
def diagnose (p : Parser σ) (d : Diagnostic) : Parser σ :=
  p.note (.diagnosed d p.cur.line p.cur.col)

@[simp] theorem cur_note (p : Parser σ) (e : LogEntry) : (p.note e).cur = p.cur := rfl

@[simp] theorem pulled_note (p : Parser σ) (e : LogEntry) : (p.note e).pulled = p.pulled := rfl

@[simp] theorem pulled_diagnose (p : Parser σ) (d : Diagnostic) :
    (p.diagnose d).pulled = p.pulled := rfl

/-- The log, oldest entry first. -/
def log (p : Parser σ) : List LogEntry := p.entries.reverse

/-- The diagnostics recorded so far, oldest first. -/
def diagnostics (p : Parser σ) : List Diagnostic := p.log.filterMap LogEntry.diagnostic?

@[simp] theorem diagnostics_note (p : Parser σ) (e : LogEntry) :
    (p.note e).diagnostics = p.diagnostics ++ e.diagnostic?.toList := by
  cases h : e.diagnostic? <;> simp [diagnostics, log, note, h]

@[simp] theorem diagnostics_diagnose (p : Parser σ) (d : Diagnostic) :
    (p.diagnose d).diagnostics = p.diagnostics ++ [d] := diagnostics_note ..

def report? (p : Parser σ) : Option ParseReport :=
  match p.diagnostics with
  | [] => none
  | ds => some ⟨ds⟩

variable [TokenSource σ]

/-- Moves on by one token. -/
def advance (p : Parser σ) : Parser σ :=
  let (t, source) := TokenSource.pull p.source
  { source := source
    cur := p.peek
    peek := t
    pulled := p.pulled + 1
    entries := (TokenSource.notice σ t).toList ++ p.entries }

/-- A parser that sees the first two tokens of a source. -/
def ofSource (s : σ) : Parser σ :=
  (Parser.mk s .endOfInput .endOfInput 0 []).advance.advance

/-- Advances onto the next token if it has the wanted kind, and otherwise says that it has not. -/
def expect (p : Parser σ) (kind : TokenKind) : Bool × Parser σ :=
  if p.peek.kind = kind then (true, p.advance)
  else (false, p.diagnose (.expectedNext kind p.peek.kind))

/-- Advances onto a semicolon, if one is next. -/
def skipSemicolon (p : Parser σ) : Parser σ :=
  if p.peek.kind = .semicolon then p.advance else p

/-! ## Weight -/

/-- What the parser may still see: the tokens of its source, the next one and the current one. -/
def weight (p : Parser σ) : Nat :=
  3 * TokenSource.remaining p.source + (if p.peek.kind = .eof then 0 else 2) +
    (if p.cur.kind = .eof then 0 else 1)

@[simp] theorem weight_diagnose (p : Parser σ) (d : Diagnostic) :
    (p.diagnose d).weight = p.weight := rfl

@[simp] theorem cur_advance (p : Parser σ) : p.advance.cur = p.peek := rfl

@[simp] theorem pulled_advance (p : Parser σ) : p.advance.pulled = p.pulled + 1 := rfl

/-- An advance records no diagnostic. -/
@[simp] theorem diagnostics_advance (p : Parser σ) : p.advance.diagnostics = p.diagnostics := by
  have h : (TokenSource.notice σ (TokenSource.pull p.source).1).toList.reverse.filterMap
      LogEntry.diagnostic? = [] := by
    simpa using TokenSource.diagnostic?_notice (σ := σ) (TokenSource.pull p.source).1
  simp [diagnostics, log, advance, h]

/-- An advance lowers the weight unless there is nothing left to see. -/
theorem weight_advance (p : Parser σ) :
    p.advance.weight < p.weight ∨ (p.weight = 0 ∧ p.advance.weight = 0) := by
  by_cases h : TokenSource.remaining p.source = 0
  · obtain ⟨hk, hr⟩ := TokenSource.exhausted p.source h
    by_cases h1 : p.peek.kind = .eof <;> by_cases h2 : p.cur.kind = .eof <;>
      simp [weight, advance, hk, hr, h, h1, h2]
  · have hlt := TokenSource.remaining_pull_lt p.source h
    left
    by_cases h1 : p.peek.kind = .eof <;> by_cases h2 : p.cur.kind = .eof <;>
      by_cases h3 : (TokenSource.pull p.source).1.kind = .eof <;>
      simp only [weight, advance, h1, h2, h3, if_true, if_false] <;> omega

theorem weight_advance_le (p : Parser σ) : p.advance.weight ≤ p.weight := by
  rcases p.weight_advance with h | ⟨h, h'⟩ <;> omega

theorem weight_advance_lt {p : Parser σ} (h : p.weight ≠ 0) : p.advance.weight < p.weight := by
  rcases p.weight_advance with h' | ⟨h', _⟩
  · exact h'
  · exact absurd h' h

theorem weight_ne_zero_of_cur {p : Parser σ} (h : p.cur.kind ≠ .eof) : p.weight ≠ 0 := by
  simp only [weight, if_neg h]
  omega

theorem weight_ne_zero_of_peek {p : Parser σ} (h : p.peek.kind ≠ .eof) : p.weight ≠ 0 := by
  simp only [weight, if_neg h]
  omega

theorem weight_expect_le (p : Parser σ) (kind : TokenKind) :
    (p.expect kind).2.weight ≤ p.weight := by
  unfold expect
  split
  · exact p.weight_advance_le
  · exact Nat.le_refl _

theorem weight_skipSemicolon_le (p : Parser σ) : p.skipSemicolon.weight ≤ p.weight := by
  unfold skipSemicolon
  split
  · exact p.weight_advance_le
  · exact Nat.le_refl _

end Parser

end MonkeySyntax
