import MonkeySyntax.Grammar.Run

/-!
# The language of programs

A program is a sequence of statements, each with a semicolon behind it or without. The grammar is
ambiguous: where no semicolon parts two statements, a minus sign that starts the second one may as
well join it to the first.
-/

namespace MonkeySyntax.Grammar

/-- A statement without its semicolon. -/
inductive Clause where
  | letClause (word name sign : Token) (value : Run)
  | returnClause (word : Token) (value : Run)
  | expression (value : Run)
deriving DecidableEq, Repr

namespace Clause

def tokens : Clause → List Token
  | letClause word name sign value => word :: name :: sign :: value.tokens
  | returnClause word value => word :: value.tokens
  | expression value => value.tokens

def WellFormed : Clause → Prop
  | letClause word name sign value =>
    word.kind = .letKw ∧ name.kind = .ident ∧ sign.kind = .assign ∧ value.WellFormed
  | returnClause word value => word.kind = .returnKw ∧ value.WellFormed
  | expression value => value.WellFormed

/-- A statement keeps the token that it starts with. -/
def tree : Clause → Node
  | letClause word name _ value => .letStmt word (.identifier name name.literal) (some value.tree)
  | returnClause word value => .returnStmt word (some value.tree)
  | expression value => .exprStmt value.first.head (some value.tree)

end Clause

structure Statement where
  clause : Clause
  semicolon : Option Token
deriving DecidableEq, Repr

namespace Statement

def tokens (s : Statement) : List Token := s.clause.tokens ++ s.semicolon.toList

def WellFormed (s : Statement) : Prop :=
  s.clause.WellFormed ∧ ∀ t ∈ s.semicolon, t.kind = .semicolon

end Statement

/-- The tokens of well-formed statements, one behind the other. -/
def IsProgram (ts : List Token) : Prop :=
  ∃ ss : List Statement, (∀ s ∈ ss, s.WellFormed) ∧ ts = ss.flatMap Statement.tokens

theorem isProgram_nil : IsProgram [] := ⟨[], by simp, rfl⟩

theorem IsProgram.append {ts us : List Token} (h : IsProgram ts) (h' : IsProgram us) :
    IsProgram (ts ++ us) := by
  obtain ⟨ss, hs, rfl⟩ := h
  obtain ⟨rs, hr, rfl⟩ := h'
  exact ⟨ss ++ rs, by simpa [or_imp, forall_and] using ⟨hs, hr⟩, by simp⟩

theorem Statement.isProgram {s : Statement} (h : s.WellFormed) : IsProgram s.tokens :=
  ⟨[s], by simpa using h, by simp⟩

end MonkeySyntax.Grammar
