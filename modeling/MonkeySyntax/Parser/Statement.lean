import MonkeySyntax.Parser.Expression

/-!
# Parsing statements and programs

A statement binds a name, returns a value or is a bare expression; a semicolon behind it belongs to
it. A let statement that lacks its name or its assignment sign is dropped. A program is every
statement up to the end of input; the main statement is the equation of the loop that reads them.
-/

namespace MonkeySyntax

namespace Parser

variable {σ : Type} [TokenSource σ]

def letStatement (p : Parser σ) : Step σ (Option Node) :=
  match p.expect .ident with
  | (false, q) => (.ok none, q)
  | (true, q) =>
    match q.expect .assign with
    | (false, r) => (.ok none, r)
    | (true, r) =>
      (r.advance.expression Precedence.lowest.rank).andThen fun value s =>
        (.ok (some (.letStmt p.cur q.identifier value)), s.skipSemicolon)

def returnStatement (p : Parser σ) : Step σ Node :=
  (p.advance.expression Precedence.lowest.rank).andThen fun value q =>
    (.ok (.returnStmt p.cur value), q.skipSemicolon)

def expressionStatement (p : Parser σ) : Step σ Node :=
  (p.expression Precedence.lowest.rank).andThen fun expression q =>
    (.ok (.exprStmt p.cur expression), q.skipSemicolon)

/-- The statement at the current token, unless it has to be dropped. -/
def statement (p : Parser σ) : Step σ (Option Node) :=
  match p.cur.kind with
  | .letKw => p.letStatement
  | .returnKw => p.returnStatement.map some
  | _ => p.expressionStatement.map some

theorem andThen_skipSemicolon_weight_le {α β : Type} (s : Step σ α) (f : α → β) :
    (s.andThen fun a q => (.ok (f a), q.skipSemicolon)).2.weight ≤ s.2.weight := by
  obtain ⟨_ | _, q⟩ := s
  · exact Nat.le_refl _
  · exact q.weight_skipSemicolon_le

theorem statement_weight_le (p : Parser σ) : p.statement.2.weight ≤ p.weight := by
  unfold statement
  split
  · unfold letStatement
    have h1 := p.weight_expect_le .ident
    split
    · simp_all
    · rename_i q hq
      have h2 := q.weight_expect_le .assign
      split
      · simp_all
        omega
      · rename_i r hr
        have h3 := r.advance.expression_weight_le Precedence.lowest.rank
        have h4 := r.weight_advance_le
        have h5 := andThen_skipSemicolon_weight_le (r.advance.expression Precedence.lowest.rank)
          fun value => some (Node.letStmt p.cur q.identifier value)
        rw [hq] at h1
        rw [hr] at h2
        simp only at h1 h2
        omega
  · have h1 := p.advance.expression_weight_le Precedence.lowest.rank
    have h2 := p.weight_advance_le
    have h3 := andThen_skipSemicolon_weight_le (p.advance.expression Precedence.lowest.rank)
      fun value => Node.returnStmt p.cur value
    simp only [Step.map_snd, returnStatement]
    omega
  · have h1 := p.expression_weight_le Precedence.lowest.rank
    have h2 := andThen_skipSemicolon_weight_le (p.expression Precedence.lowest.rank)
      fun expression => Node.exprStmt p.cur expression
    simp only [Step.map_snd, expressionStatement]
    omega

/-- Between two statements the parser always moves on. -/
theorem statement_advance_weight_lt {p : Parser σ} (h : p.cur.kind ≠ .eof) :
    p.statement.2.advance.weight < p.weight := by
  have h0 := weight_ne_zero_of_cur h
  have h1 := p.statement_weight_le
  rcases p.statement.2.weight_advance with h2 | ⟨_, h2⟩ <;> omega

/-- The statements from the current token to the end of input. -/
def statements (p : Parser σ) : Step σ (List Node) :=
  if _h : p.cur.kind = .eof then (.ok [], p)
  else
    match _hs : p.statement with
    | (.error e, q) => (.error e, q)
    | (.ok s, q) => q.advance.statements.map fun ss => s.toList ++ ss
termination_by p.weight
decreasing_by simpa only [_hs] using statement_advance_weight_lt _h

theorem statements_eq (p : Parser σ) :
    p.statements =
      if p.cur.kind = .eof then (.ok [], p)
      else p.statement.andThen fun s q => q.advance.statements.map fun ss => s.toList ++ ss := by
  rw [statements]
  split
  · rfl
  · split <;> rename_i h <;> simp only [h, Step.andThen_error, Step.andThen_ok]

/-- All statements as a program, with a summary in the log. -/
def program (p : Parser σ) : Step σ Node :=
  p.statements.andThen fun ss q =>
    (.ok (.program ss),
      q.note (.finished ss.length (q.diagnostics.length - p.diagnostics.length)))

/-- Parses everything that a source delivers. -/
def parse (s : σ) : Step σ Node := (ofSource s).program

end Parser

end MonkeySyntax
