import MonkeySyntax.Parser.Nesting
import MonkeySyntax.Parser.Operation
import MonkeySyntax.Proofs.Recovery.Reading

/-!
# Runs of unary operators

A run of unary operators may be gathered first and wrapped around its operand afterwards, or read
one operator inside the other. The two come to the same in every state, because no infix operator
binds tighter than a unary one: at that rank an expression is an operand and nothing goes on with
it.
-/

namespace MonkeySyntax.Parser

open Recovery

variable {σ : Type} [TokenSource σ] {p : Parser σ}

/-! ## The rank of unary operators -/

theorem not_extends_unary (k : TokenKind) : ¬ k.Extends Precedence.unary.rank := by
  rintro ⟨-, htighter⟩
  have hlooser := k.rank_lt_unary
  omega

theorem operand_of_isUnary (h : p.cur.kind.isUnary) :
    p.operand = p.advance.operand.map fun right => some (.prefixOp p.cur p.cur.literal right) := by
  rw [operand, unaryRun, dif_pos h, operand, Step.map_map]
  rfl

theorem operand_of_not_isUnary (h : ¬ p.cur.kind.isUnary) : p.operand = p.atom := by
  rw [operand, unaryRun, dif_neg h]
  exact Step.map_id _

/-- At the rank of unary operators an expression is an operand. -/
theorem expression_unary (p : Parser σ) : p.expression Precedence.unary.rank = p.operand := by
  rw [expression_eq]
  cases hrule : p.cur.kind.operandRule? with
  | none =>
    have hatom : (Atom.missing p.cur).WellFormed := hrule
    have hunary : ¬ p.cur.kind.isUnary := by
      rw [Bool.not_eq_true]
      exact Atom.isUnary_token hatom
    rw [operand_of_not_isUnary hunary, atom_eq_tree hatom rfl]
    rfl
  | some rule =>
    rcases p.operand with ⟨_ | left, q⟩
    · rfl
    · exact climb_stop (not_extends_unary _)

/-- The loop: the operators are gathered, one expression is read behind them, and the operators are
put before it from the last to the first. -/
theorem operand_eq_run (p : Parser σ) :
    p.operand = (p.unaryRun.2.expression Precedence.unary.rank).map (wrap p.unaryRun.1) := by
  obtain ⟨run, -, -, hend, hrun⟩ := p.exists_unaryRun
  have hatom := operand_of_not_isUnary (p := p.forward run.length) (by simp [hend])
  rw [operand, hrun, expression_unary, hatom]

/-! ## One operator inside the other -/

/-- Expressions agree where the climbs behind their operands do. -/
theorem nested_of_climb {rank : Int}
    (h : ∀ (q : Parser σ) (rank : Int) (left : Option Node), q.weight ≤ p.weight →
      q.nestedClimb rank left = q.climb rank left) :
    p.nested rank = p.expression rank := by
  -- on the weight, since each operator of a run leads to the expression behind it
  induction hweight : p.weight using Nat.strongRecOn generalizing p rank with
  | ind n ih =>
    subst hweight
    have hoperand : p.nestedOperand = p.operand := by
      rw [nestedOperand_eq]
      by_cases hunary : p.cur.kind.isUnary
      · have hlt := weight_advance_of_isUnary hunary
        have hbehind : p.advance.nested Precedence.unary.rank = p.advance.operand := by
          rw [← expression_unary]
          apply ih _ hlt _ rfl
          intro q rank left hle
          exact h q rank left (by omega)
        rw [if_pos hunary, nestedUnary, Step.map_map, hbehind, operand_of_isUnary hunary]
      · rw [if_neg hunary, operand_of_not_isUnary hunary]
    rw [nested_eq, expression_eq, hoperand]
    cases p.cur.kind.operandRule? with
    | none => rfl
    | some rule =>
      have hle := p.operand_weight_le
      rcases hread : p.operand with ⟨_ | left, q⟩
      · rfl
      · rw [hread] at hle
        exact h q rank left hle

theorem nestedClimb_eq_climb (rank : Int) (left : Option Node) (p : Parser σ) :
    p.nestedClimb rank left = p.climb rank left := by
  induction hweight : p.weight using Nat.strongRecOn generalizing p rank left with
  | ind n ih =>
    subst hweight
    rw [nestedClimb_eq, climb_eq]
    cases hlevel : p.peek.kind.infixLevel? with
    | none => rfl
    | some level =>
      have hlt := weight_two_advances hlevel
      have hle := p.advance.advance.expression_weight_le level.rank
      have hright : p.advance.advance.nested level.rank =
          p.advance.advance.expression level.rank := by
        apply nested_of_climb
        intro q rank left hq
        exact ih _ (by omega) rank left q rfl
      by_cases hrank : rank < level.rank
      · simp only [if_pos hrank, hright]
        rcases hread : p.advance.advance.expression level.rank with ⟨_ | right, q⟩
        · rfl
        · rw [hread] at hle
          exact ih _ (Nat.lt_of_le_of_lt hle hlt) rank _ q rfl
      · simp only [if_neg hrank]

/-- Expressions are read alike, whether runs of operators are gathered or nested. -/
theorem nested_eq_expression (rank : Int) (p : Parser σ) : p.nested rank = p.expression rank := by
  apply nested_of_climb
  intro q rank left _
  exact nestedClimb_eq_climb rank left q

theorem operand_eq_nestedUnary (h : p.cur.kind.isUnary) :
    p.operand = p.nestedUnary.map some := by
  rw [operand_of_isUnary h, nestedUnary, Step.map_map, nested_eq_expression, expression_unary]

/-! ## In every state -/

theorem unaryExpression_of_isUnary (h : p.cur.kind.isUnary) :
    p.unaryExpression = p.nestedUnary := by
  rw [unaryExpression, operand_eq_nestedUnary h]
  rcases p.nestedUnary with ⟨_ | n, q⟩ <;> rfl

/-- Behind an operator the answer is never missing, since the operator itself is part of it. -/
theorem unaryExpression_cases (h : p.cur.kind.isUnary) :
    (∃ n q, p.unaryExpression = (.ok n, q)) ∨ p.Overlong p.unaryExpression := by
  have hnested := operand_eq_nestedUnary h
  rcases p.operand_cases with ⟨o, hwf, hfaces⟩ | hover
  · left
    rw [operand_eq_tree hwf hfaces] at hnested
    rw [unaryExpression_of_isUnary h]
    rcases hread : p.nestedUnary with ⟨_ | n, q⟩
    · rw [hread] at hnested
      cases hnested
    · exact ⟨n, q, rfl⟩
  · exact Or.inr (hover.andThen _)

/-- At a unary operator the loop over the run comes to the same as the nested rule, whatever state
the parser is in: answer, log, source and the two tokens in sight. There is always an operand to
answer, also where the tokens give out inside the run, and only a decimal integer with too many
digits can break the run off. -/
theorem unaryExpression_eq_nestedUnary (h : p.cur.kind.isUnary) :
    p.operand = (p.unaryRun.2.expression Precedence.unary.rank).map (wrap p.unaryRun.1) ∧
      p.unaryExpression = p.nestedUnary ∧
      (∀ q, p.unaryExpression ≠ (.error .missingOperand, q)) ∧
      ((∀ n, (p.ahead n).WithinLimit) → ∃ n q, p.unaryExpression = (.ok n, q)) := by
  refine ⟨operand_eq_run p, unaryExpression_of_isUnary h, ?_, ?_⟩
  · intro q hmissing
    rcases unaryExpression_cases h with ⟨n, r, hanswer⟩ | ⟨ms, ts, e, hfault, -⟩
    · rw [hanswer] at hmissing
      cases hmissing
    · rw [hfault] at hmissing
      cases hmissing
  · intro hlimit
    rcases unaryExpression_cases h with hanswer | hover
    · exact hanswer
    · exact absurd hover (not_overlong hlimit)

/-- The tokens `! -` give out inside the run, in a state that holds a remark already: both operators
are answered, and the missing operand is reported behind the remark. -/
theorem unaryExpression_eq_nestedUnary_brokenOff :
    let ts : List Token := [⟨.bang, "!", 1, 1⟩, ⟨.minus, "-", 1, 2⟩]
    let p := (ofSource (TokenQueue.ofList ts)).after [.remark "seen"]
    p.cur.kind.isUnary ∧ (∀ n, (p.ahead n).WithinLimit) ∧ ∃ q,
      p.unaryExpression = (.ok (.prefixOp ⟨.bang, "!", 1, 1⟩ "!"
        (some (.prefixOp ⟨.minus, "-", 1, 2⟩ "-" none))), q) ∧
      p.nestedUnary = p.unaryExpression ∧ q.diagnostics = [.remark "seen", .noOperand .eof] ∧
      q.cur = .endOfInput := by
  intro ts p
  have hunary : p.cur.kind.isUnary := rfl
  have hlimit : ∀ n, (p.ahead n).WithinLimit := by
    intro n
    have hahead : p.ahead n = (ofSource (TokenQueue.ofList ts)).ahead n := ahead_diagnose ..
    rw [hahead]
    exact withinLimit_ahead_ofList (Token.forall_withinLimit (by decide)) n
  let o : Operand := ⟨ts, .missing .endOfInput⟩
  have hfaces : p.Faces o.tokens := ⟨rfl, rfl, rfl, trivial⟩
  have hread : p.unaryExpression = (.ok (.prefixOp ⟨.bang, "!", 1, 1⟩ "!"
      (some (.prefixOp ⟨.minus, "-", 1, 2⟩ "-" none))), p.follow o.moves) := by
    rw [unaryExpression, operand_eq_tree (by decide) hfaces]
    rfl
  obtain ⟨-, hnested, -, hanswers⟩ := unaryExpression_eq_nestedUnary hunary
  obtain ⟨n, q, hanswer⟩ := hanswers hlimit
  obtain ⟨-, rfl⟩ := Prod.mk.inj (hanswer.symm.trans hread)
  refine ⟨hunary, hlimit, _, hread, hnested.symm, ?_, rfl⟩
  rw [diagnostics_follow]
  rfl

end MonkeySyntax.Parser
