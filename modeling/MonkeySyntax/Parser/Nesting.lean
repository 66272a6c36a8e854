import MonkeySyntax.Parser.Expression

/-!
# Nested unary operators

The rule for unary operators as textbooks have it: remember the operator, move on, parse an
expression at the rank of unary operators and put the operator before it. That expression may start
with another operator, so a run of operators is read one inside the other and never gathered. All
the rest is as in `expression`. The main statements are the equations of the three functions.
-/

namespace MonkeySyntax.Parser

variable {σ : Type} [TokenSource σ]

mutual

/-- An expression together with the bound on its weight that lets the recursion end. -/
def nestedCore (rank : Int) (p : Parser σ) :
    { r : Step σ (Option Node) // r.2.weight ≤ p.weight } :=
  match p.cur.kind.operandRule? with
  | none => ⟨(.ok none, p.diagnose (.noOperand p.cur.kind)), Nat.le_refl _⟩
  | some _ =>
    match nestedOperandCore p with
    | ⟨(.error e, q), hq⟩ => ⟨(.error e, q), hq⟩
    | ⟨(.ok left, q), hq⟩ =>
      let r := nestedClimbCore rank left q
      ⟨r.1, Nat.le_trans r.2 hq⟩
termination_by (p.weight, 2)
decreasing_by
  · exact Prod.Lex.right _ (by decide)
  · rcases Nat.lt_or_eq_of_le hq with h | h
    · exact Prod.Lex.left _ _ h
    · rw [h]
      exact Prod.Lex.right _ (by decide)

/-- An operand together with the bound on its weight. -/
def nestedOperandCore (p : Parser σ) : { r : Step σ (Option Node) // r.2.weight ≤ p.weight } :=
  if _h : p.cur.kind.isUnary then
    have hp := weight_advance_of_isUnary _h
    let r := nestedCore Precedence.unary.rank p.advance
    ⟨r.1.map fun right => some (.prefixOp p.cur p.cur.literal right),
      Nat.le_trans r.2 (Nat.le_of_lt hp)⟩
  else ⟨p.atom, Nat.le_of_eq p.atom_weight⟩
termination_by (p.weight, 1)
decreasing_by exact Prod.Lex.left _ _ hp

/-- A climb together with the bound on its weight. -/
def nestedClimbCore (rank : Int) (left : Option Node) (p : Parser σ) :
    { r : Step σ (Option Node) // r.2.weight ≤ p.weight } :=
  match _h : p.peek.kind.infixLevel? with
  | none => ⟨(.ok left, p), Nat.le_refl _⟩
  | some level =>
    if rank < level.rank then
      have hp := weight_two_advances _h
      match nestedCore level.rank p.advance.advance with
      | ⟨(.error e, q), hq⟩ => ⟨(.error e, q), Nat.le_of_lt (Nat.lt_of_le_of_lt hq hp)⟩
      | ⟨(.ok right, q), hq⟩ =>
        have hlt : q.weight < p.weight := Nat.lt_of_le_of_lt hq hp
        let r := nestedClimbCore rank (some (.infixOp p.peek p.peek.literal left right)) q
        ⟨r.1, Nat.le_trans r.2 (Nat.le_of_lt hlt)⟩
    else ⟨(.ok left, p), Nat.le_refl _⟩
termination_by (p.weight, 0)
decreasing_by
  · exact Prod.Lex.left _ _ hp
  · exact Prod.Lex.left _ _ hlt

end

/-- An expression whose infix operators all bind tighter than the given rank. -/
def nested (rank : Int) (p : Parser σ) : Step σ (Option Node) := (nestedCore rank p).1

def nestedOperand (p : Parser σ) : Step σ (Option Node) := (nestedOperandCore p).1

def nestedClimb (rank : Int) (left : Option Node) (p : Parser σ) : Step σ (Option Node) :=
  (nestedClimbCore rank left p).1

/-- The unary operator at the current token before the expression that is its operand. -/
def nestedUnary (p : Parser σ) : Step σ Node :=
  (p.advance.nested Precedence.unary.rank).map fun right => .prefixOp p.cur p.cur.literal right

theorem nested_eq (rank : Int) (p : Parser σ) :
    p.nested rank =
      match p.cur.kind.operandRule? with
      | none => (.ok none, p.diagnose (.noOperand p.cur.kind))
      | some _ => p.nestedOperand.andThen fun left q => q.nestedClimb rank left := by
  rw [nested, nestedCore]
  split
  · rfl
  · split <;> rename_i h <;>
      simp only [nestedOperand, h, Step.andThen_error, Step.andThen_ok, nestedClimb]

theorem nestedOperand_eq (p : Parser σ) :
    p.nestedOperand = if p.cur.kind.isUnary then p.nestedUnary.map some else p.atom := by
  rw [nestedOperand, nestedOperandCore]
  by_cases h : p.cur.kind.isUnary
  · rw [dif_pos h, if_pos h, nestedUnary, Step.map_map]
    rfl
  · rw [dif_neg h, if_neg h]

theorem nestedClimb_eq (rank : Int) (left : Option Node) (p : Parser σ) :
    p.nestedClimb rank left =
      match p.peek.kind.infixLevel? with
      | none => (.ok left, p)
      | some level =>
        if rank < level.rank then
          (p.advance.advance.nested level.rank).andThen fun right q =>
            q.nestedClimb rank (some (.infixOp p.peek p.peek.literal left right))
        else (.ok left, p) := by
  rw [nestedClimb, nestedClimbCore]
  split
  · rename_i h
    simp only [h]
  · rename_i level h
    simp only [h]
    split
    · split <;> rename_i hr <;>
        simp only [nested, hr, Step.andThen_error, Step.andThen_ok, nestedClimb]
    · rfl

end MonkeySyntax.Parser
