import MonkeySyntax.Proofs.Recovery.Clean
import MonkeySyntax.Proofs.Recovery.Expression

/-!
# Precedence climbing

On a run of the grammar the parser of expressions builds the tree that is given without a parser,
with the last operator of the lowest rank at its root. It starts at any state, whatever was read or
recorded before, and whatever stands behind the run, as long as that does not go on with it.
-/

namespace MonkeySyntax.Parser

variable {σ : Type} [TokenSource σ]

theorem FacesRun.ofGrammar {p : Parser σ} {rank : Int} {w : Grammar.Run} (hwf : w.WellFormed)
    (habove : w.Above rank) (hfaces : p.Faces w.tokens)
    (hnext : ¬ (p.ahead w.tokens.length).kind.Extends rank) :
    p.FacesRun rank (.ofGrammar w) where
  wellFormed := Recovery.Run.wellFormed_ofGrammar.mpr hwf
  above := List.forall_mem_map.mpr habove
  faces := by rwa [Recovery.Run.tokens_ofGrammar]
  ends := by
    rw [Recovery.Run.tokens_ofGrammar]
    exact Or.inr hnext

/-- The state behind a run differs from the one before it by the tokens passed and nothing else. -/
theorem expression_eq_some_tree {p : Parser σ} {rank : Int} {w : Grammar.Run} (hwf : w.WellFormed)
    (habove : w.Above rank) (hfaces : p.Faces w.tokens)
    (hnext : ¬ ((p.ahead w.tokens.length).kind.isInfix ∧
      rank < (p.ahead w.tokens.length).kind.rank)) :
    ∃ q, p.expression rank = (.ok (some w.tree), q) ∧ w.tokens.getLast? = some q.cur ∧
      q.diagnostics = p.diagnostics ∧ q = p.forward (w.tokens.length - 1) := by
  have hrun := FacesRun.ofGrammar hwf habove hfaces hnext
  have hclean : Move.diagnostics (Recovery.Run.ofGrammar w).moves = [] := by
    rw [Recovery.Run.diagnostics_moves, Recovery.Run.diagnostics_ofGrammar]
  have hlength := (Recovery.Run.ofGrammar w).advances_moves
  rw [Recovery.Run.tokens_ofGrammar] at hlength
  have hlast : w.tokens.length - 1 = Move.advances (Recovery.Run.ofGrammar w).moves := by omega
  refine ⟨p.forward (w.tokens.length - 1), ?_, ?_, diagnostics_forward _ _, rfl⟩
  · rw [expression_eq_tree hrun, Recovery.Run.tree_ofGrammar, follow_eq_forward hclean, hlast]
  · rw [List.getLast?_eq_getElem?, List.getElem?_eq_getElem (by omega), cur_forward,
      (p.faces_iff_ahead _).mp hfaces _ (by omega)]

/-- The run `a - b * -7 - c`. -/
def mixedRun : Grammar.Run :=
  ⟨⟨[], .identifier ⟨.ident, "a", 1, 1⟩⟩,
    [(⟨.minus, "-", 1, 3⟩, ⟨[], .identifier ⟨.ident, "b", 1, 5⟩⟩),
      (⟨.asterisk, "*", 1, 7⟩, ⟨[⟨.minus, "-", 1, 9⟩], .integer ⟨.int, "7", 1, 10⟩ 7⟩),
      (⟨.minus, "-", 1, 12⟩, ⟨[], .identifier ⟨.ident, "c", 1, 14⟩⟩)]⟩

theorem mixedRun_wellFormed : mixedRun.WellFormed := by
  have hseven : readInt64 "7" = .ok (some 7) := by decide
  simp [mixedRun, Grammar.Run.WellFormed, Grammar.Operand.WellFormed, Grammar.Leaf.WellFormed,
    TokenKind.isInfix, TokenKind.infixLevel?, TokenKind.isUnary, hseven]

/-- The run is read up to the parenthesis behind it, also when a diagnostic was recorded before. -/
theorem expression_mixedRun :
    let p := (ofSource (TokenQueue.ofList (mixedRun.tokens ++ [⟨.rparen, ")", 1, 15⟩]))).diagnose
      (.remark "before")
    mixedRun.WellFormed ∧ mixedRun.Above 1 ∧ p.Faces mixedRun.tokens ∧
      (p.ahead mixedRun.tokens.length).kind = .rparen ∧
      ∃ q, p.expression 1 = (.ok (some mixedRun.tree), q) ∧
        mixedRun.tokens.getLast? = some q.cur ∧ q.diagnostics = p.diagnostics ∧
        q = p.forward (mixedRun.tokens.length - 1) := by
  intro p
  have habove : mixedRun.Above 1 := by
    unfold Grammar.Run.Above
    decide
  have hfaces : p.Faces mixedRun.tokens := ⟨rfl, rfl, rfl, rfl, rfl, rfl, rfl, rfl, trivial⟩
  refine ⟨mixedRun_wellFormed, habove, hfaces, rfl, ?_⟩
  exact expression_eq_some_tree mixedRun_wellFormed habove hfaces (by decide)

end MonkeySyntax.Parser
