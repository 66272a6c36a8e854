import MonkeySyntax.Parser.State

/-!
# Parsing expressions

An operand is a run of unary operators and the identifier or integer behind it. Infix operators
follow an operand for as long as they bind tighter than a given rank; the right operand of each is
an expression whose operators bind tighter than that operator. What cannot be parsed is left out of
the tree, with a diagnostic. The main statements are the two equations of the climb, which hide the
measure that makes it end.
-/

namespace MonkeySyntax

/-- The rules by which an operand can start. -/
inductive OperandRule where
  | identifier | integer | unary
deriving DecidableEq, Repr

namespace TokenKind

def operandRule? : TokenKind → Option OperandRule
  | ident => some .identifier
  | int => some .integer
  | bang | minus => some .unary
  | _ => none

end TokenKind

namespace Parser

variable {σ : Type} [TokenSource σ]

/-! ## Operands -/

/-- The current token as an identifier. -/
def identifier (p : Parser σ) : Node := .identifier p.cur p.cur.literal

/-- The current token as an integer, if its literal denotes one. -/
def integer (p : Parser σ) : Step σ (Option Node) :=
  match readInt64 p.cur.literal with
  | .error e => (.error (.overlong e), p)
  | .ok none => (.ok none, p.diagnose (.badInteger p.cur.literal))
  | .ok (some v) => (.ok (some (.integer p.cur v)), p)

/-- An identifier or an integer; nothing else stands behind the unary operators of an operand. -/
def atom (p : Parser σ) : Step σ (Option Node) :=
  match p.cur.kind with
  | .ident => (.ok (some p.identifier), p)
  | .int => p.integer
  | kind => (.ok none, p.diagnose (.noOperand kind))

theorem weight_advance_of_isUnary {p : Parser σ} (h : p.cur.kind.isUnary) :
    p.advance.weight < p.weight :=
  weight_advance_lt (weight_ne_zero_of_cur fun he => by simp [he, TokenKind.isUnary] at h)

/-- Passes the unary operators from the current token on. -/
def unaryRun (p : Parser σ) : List Token × Parser σ :=
  if _h : p.cur.kind.isUnary then
    let (run, q) := p.advance.unaryRun
    (p.cur :: run, q)
  else ([], p)
termination_by p.weight
decreasing_by exact weight_advance_of_isUnary _h

/-- Puts operator tokens, outermost first, before an operand. -/
def wrap (run : List Token) (operand : Option Node) : Option Node :=
  Node.wrap (run.map fun t => (t, t.literal)) operand

def operand (p : Parser σ) : Step σ (Option Node) :=
  let (run, q) := p.unaryRun
  q.atom.map (wrap run)

/-- An operand where one is demanded. -/
def unaryExpression (p : Parser σ) : Step σ Node :=
  p.operand.andThen fun
    | some n, q => (.ok n, q)
    | none, q => (.error .missingOperand, q)

theorem unaryRun_weight_le (p : Parser σ) : p.unaryRun.2.weight ≤ p.weight := by
  fun_induction unaryRun p with
  | case1 p h run q heq ih =>
    have := p.weight_advance_le
    simp only [heq] at ih ⊢
    omega
  | case2 => exact Nat.le_refl _

theorem integer_weight (p : Parser σ) : p.integer.2.weight = p.weight := by
  unfold integer
  split <;> simp

theorem atom_weight (p : Parser σ) : p.atom.2.weight = p.weight := by
  unfold atom
  split
  · rfl
  · exact p.integer_weight
  · simp

theorem operand_weight_le (p : Parser σ) : p.operand.2.weight ≤ p.weight := by
  simp only [operand, Step.map_snd, atom_weight]
  exact p.unaryRun_weight_le

/-! ## Climbing -/

theorem weight_two_advances {p : Parser σ} {level : Precedence}
    (h : p.peek.kind.infixLevel? = some level) : p.advance.advance.weight < p.weight := by
  have h1 := weight_advance_lt
    (weight_ne_zero_of_peek (p := p) fun he => by simp [he, TokenKind.infixLevel?] at h)
  have h2 := p.advance.weight_advance_le
  omega

mutual

/-- An expression together with the bound on its weight that lets the climb recurse. -/
def expressionCore (rank : Int) (p : Parser σ) :
    { r : Step σ (Option Node) // r.2.weight ≤ p.weight } :=
  match p.cur.kind.operandRule? with
  | none => ⟨(.ok none, p.diagnose (.noOperand p.cur.kind)), Nat.le_refl _⟩
  | some _ =>
    match _h : p.operand with
    | (.error e, q) => ⟨(.error e, q), by simpa [_h] using p.operand_weight_le⟩
    | (.ok left, q) =>
      have hq : q.weight ≤ p.weight := by simpa [_h] using p.operand_weight_le
      let r := climbCore rank left q
      ⟨r.1, Nat.le_trans r.2 hq⟩
termination_by (p.weight, 1)
decreasing_by
  rcases Nat.lt_or_eq_of_le hq with h | h
  · exact Prod.Lex.left _ _ h
  · rw [h]
    exact Prod.Lex.right _ Nat.zero_lt_one

/-- A climb together with the bound on its weight. -/
def climbCore (rank : Int) (left : Option Node) (p : Parser σ) :
    { r : Step σ (Option Node) // r.2.weight ≤ p.weight } :=
  match _h : p.peek.kind.infixLevel? with
  | none => ⟨(.ok left, p), Nat.le_refl _⟩
  | some level =>
    if rank < level.rank then
      have hp := weight_two_advances _h
      match expressionCore level.rank p.advance.advance with
      | ⟨(.error e, q), hq⟩ => ⟨(.error e, q), Nat.le_of_lt (Nat.lt_of_le_of_lt hq hp)⟩
      | ⟨(.ok right, q), hq⟩ =>
        have hlt : q.weight < p.weight := Nat.lt_of_le_of_lt hq hp
        let r := climbCore rank (some (.infixOp p.peek p.peek.literal left right)) q
        ⟨r.1, Nat.le_trans r.2 (Nat.le_of_lt hlt)⟩
    else ⟨(.ok left, p), Nat.le_refl _⟩
termination_by (p.weight, 0)
decreasing_by
  · exact Prod.Lex.left _ _ hp
  · exact Prod.Lex.left _ _ hlt

end

/-- An expression whose infix operators all bind tighter than the given rank. -/
def expression (rank : Int) (p : Parser σ) : Step σ (Option Node) := (expressionCore rank p).1

/-- Goes on from a left operand with the infix operators that bind tighter than the given rank. -/
def climb (rank : Int) (left : Option Node) (p : Parser σ) : Step σ (Option Node) :=
  (climbCore rank left p).1

theorem expression_weight_le (rank : Int) (p : Parser σ) :
    (p.expression rank).2.weight ≤ p.weight :=
  (expressionCore rank p).2

theorem expression_eq (rank : Int) (p : Parser σ) :
    p.expression rank =
      match p.cur.kind.operandRule? with
      | none => (.ok none, p.diagnose (.noOperand p.cur.kind))
      | some _ => p.operand.andThen fun left q => q.climb rank left := by
  rw [expression, expressionCore]
  split
  · rfl
  · split <;> rename_i h <;> simp only [h, Step.andThen_error, Step.andThen_ok, climb]

theorem climb_eq (rank : Int) (left : Option Node) (p : Parser σ) :
    p.climb rank left =
      match p.peek.kind.infixLevel? with
      | none => (.ok left, p)
      | some level =>
        if rank < level.rank then
          (p.advance.advance.expression level.rank).andThen fun right q =>
            q.climb rank (some (.infixOp p.peek p.peek.literal left right))
        else (.ok left, p) := by
  rw [climb, climbCore]
  split
  · rename_i h
    simp only [h]
  · rename_i level h
    simp only [h]
    split
    · split <;> rename_i hr <;>
        simp only [expression, hr, Step.andThen_error, Step.andThen_ok, climb]
    · rfl

/-- An infix operator at the current token, with a left operand already parsed. -/
def infixExpression (p : Parser σ) (left : Option Node) : Step σ Node :=
  (p.advance.expression p.cur.kind.rank).map fun right =>
    .infixOp p.cur p.cur.literal left right

end Parser

end MonkeySyntax
