import MonkeySyntax.Parser.Statement
import MonkeySyntax.Proofs.Positions
import MonkeySyntax.Proofs.Recovery.Expression

/-!
# Parsers that agree

Two parsers agree, whatever their sources are, when they are going to see the same tokens up to
positions and have pulled and reported the same so far. Each function of the parser keeps them in
agreement and answers trees that differ in positions only, or the same fault. The two recursions go
in lock step: they are followed by induction on the weight of the first parser.
-/

namespace MonkeySyntax.Parser

variable {σ τ : Type} [TokenSource σ] [TokenSource τ]

structure Agree (p : Parser σ) (q : Parser τ) : Prop where
  sees : ∀ n, (p.ahead n).unplaced = (q.ahead n).unplaced
  pulled : p.pulled = q.pulled
  diagnostics : p.diagnostics = q.diagnostics

/-- Two steps come to the same fault or to results that differ in what is erased, in states that
agree. -/
structure Alike {α β : Type} (erase : α → β) (s : Step σ α) (t : Step τ α) : Prop where
  result : s.1.map erase = t.1.map erase
  agree : Agree s.2 t.2

namespace Alike

variable {α α' β β' : Type} {erase : α → β} {erase' : α' → β'} {s : Step σ α} {t : Step τ α}

theorem ok {a b : α} {p : Parser σ} {q : Parser τ} (h : erase a = erase b) (hagree : Agree p q) :
    Alike erase (.ok a, p) (.ok b, q) where
  result := congrArg Except.ok h
  agree := hagree

theorem andThen {f : α → Parser σ → Step σ α'} {g : α → Parser τ → Step τ α'}
    (h : Alike erase s t) (hnext : ∀ a b, erase a = erase b → Alike erase' (f a s.2) (g b t.2)) :
    Alike erase' (s.andThen f) (t.andThen g) := by
  obtain ⟨hresult, hagree⟩ := h
  obtain ⟨e | a, p⟩ := s <;> obtain ⟨e' | b, q⟩ := t
  · cases hresult
    exact ⟨rfl, hagree⟩
  · cases hresult
  · cases hresult
  · exact hnext a b (Except.ok.inj hresult)

theorem map {f g : α → α'} (h : Alike erase s t)
    (hfg : ∀ a b, erase a = erase b → erase' (f a) = erase' (g b)) :
    Alike erase' (s.map f) (t.map g) := by
  obtain ⟨hresult, hagree⟩ := h
  obtain ⟨e | a, p⟩ := s <;> obtain ⟨e' | b, q⟩ := t
  · cases hresult
    exact ⟨rfl, hagree⟩
  · cases hresult
  · cases hresult
  · exact .ok (hfg a b (Except.ok.inj hresult)) hagree

end Alike

@[simp] theorem ahead_note (p : Parser σ) (e : LogEntry) (n : Nat) :
    (p.note e).ahead n = p.ahead n := by
  apply ahead_congr <;> rfl

/-- Missing subtrees stay missing. -/
abbrev unplacedChild (o : Option Node) : Option Node := Node.mapChild Token.unplaced o

namespace Agree

variable {p : Parser σ} {q : Parser τ} {rank : Int} {left left' : Option Node}

/-! ## States -/

theorem cur (h : Agree p q) : p.cur.unplaced = q.cur.unplaced := h.sees 0

theorem peek (h : Agree p q) : p.peek.unplaced = q.peek.unplaced := h.sees 1

theorem sameText_cur (h : Agree p q) : p.cur.SameText q.cur := Token.unplaced_eq_iff.mp h.cur

theorem sameText_peek (h : Agree p q) : p.peek.SameText q.peek := Token.unplaced_eq_iff.mp h.peek

theorem kind_cur (h : Agree p q) : p.cur.kind = q.cur.kind := h.sameText_cur.1

theorem literal_cur (h : Agree p q) : p.cur.literal = q.cur.literal := h.sameText_cur.2

theorem kind_peek (h : Agree p q) : p.peek.kind = q.peek.kind := h.sameText_peek.1

theorem literal_peek (h : Agree p q) : p.peek.literal = q.peek.literal := h.sameText_peek.2

theorem advance (h : Agree p q) : Agree p.advance q.advance where
  sees n := h.sees (n + 1)
  pulled := by rw [pulled_advance, pulled_advance, h.pulled]
  diagnostics := by rw [diagnostics_advance, diagnostics_advance, h.diagnostics]

theorem note {e e' : LogEntry} (h : Agree p q) (he : e.diagnostic? = e'.diagnostic?) :
    Agree (p.note e) (q.note e') where
  sees n := by
    rw [ahead_note, ahead_note]
    exact h.sees n
  pulled := h.pulled
  diagnostics := by rw [diagnostics_note, diagnostics_note, h.diagnostics, he]

theorem diagnose (h : Agree p q) (d : Diagnostic) : Agree (p.diagnose d) (q.diagnose d) :=
  h.note rfl

theorem skipSemicolon (h : Agree p q) : Agree p.skipSemicolon q.skipSemicolon := by
  unfold Parser.skipSemicolon
  rw [← h.kind_peek]
  split
  · exact h.advance
  · exact h

/-! ## Operands -/

theorem identifier (h : Agree p q) : p.identifier.unplaced = q.identifier.unplaced := by
  simp only [Parser.identifier, Node.unplaced, Node.mapTokens, h.cur, h.literal_cur]

theorem integer (h : Agree p q) : Alike unplacedChild p.integer q.integer := by
  unfold Parser.integer
  rw [← h.literal_cur]
  split
  · exact ⟨rfl, h⟩
  · exact .ok rfl (h.diagnose _)
  · apply Alike.ok _ h
    simp only [Node.mapChild, Node.mapTokens, h.cur]

theorem atom (h : Agree p q) : Alike unplacedChild p.atom q.atom := by
  unfold Parser.atom
  rw [← h.kind_cur]
  split
  · exact .ok (congrArg some h.identifier) h
  · exact h.integer
  · exact .ok rfl (h.diagnose _)

theorem unaryRun (h : Agree p q) :
    p.unaryRun.1.map Token.unplaced = q.unaryRun.1.map Token.unplaced ∧
      Agree p.unaryRun.2 q.unaryRun.2 := by
  fun_induction Parser.unaryRun p generalizing q with
  | case1 p hunary run r hrun ih =>
    have hunary' : q.cur.kind.isUnary := h.kind_cur ▸ hunary
    obtain ⟨htokens, hagree⟩ := ih h.advance
    rw [hrun] at htokens hagree
    rw [Parser.unaryRun, dif_pos hunary']
    exact ⟨by simp [h.cur, htokens], hagree⟩
  | case2 p hunary =>
    have hunary' : ¬ q.cur.kind.isUnary := h.kind_cur ▸ hunary
    rw [Parser.unaryRun, dif_neg hunary']
    exact ⟨rfl, h⟩

/-- Operators are put before an operand token by token. -/
theorem unplaced_wrap (run : List Token) (o : Option Node) :
    unplacedChild (wrap run o) = wrap (run.map Token.unplaced) (unplacedChild o) := by
  induction run with
  | nil => rfl
  | cons t ts ih =>
    simp only [unplacedChild, wrap, Node.wrap, List.map_cons, List.foldr_cons] at ih ⊢
    simp only [Node.mapChild, Node.mapTokens, Token.literal_unplaced, ih]

theorem operand (h : Agree p q) : Alike unplacedChild p.operand q.operand := by
  obtain ⟨htokens, hagree⟩ := h.unaryRun
  apply hagree.atom.map
  intro a b hab
  rw [unplaced_wrap, unplaced_wrap, htokens, hab]

/-! ## Expressions -/

theorem expression_of_climb (h : Agree p q)
    (hclimb : ∀ (p' : Parser σ) (q' : Parser τ), p'.weight ≤ p.weight → Agree p' q' →
      ∀ left left', unplacedChild left = unplacedChild left' →
        Alike unplacedChild (p'.climb rank left) (q'.climb rank left')) :
    Alike unplacedChild (p.expression rank) (q.expression rank) := by
  rw [expression_eq, expression_eq, ← h.kind_cur]
  split
  · exact .ok rfl (h.diagnose _)
  · have hoperand := h.operand
    apply hoperand.andThen
    intro left left' hleft
    exact hclimb _ _ p.operand_weight_le hoperand.agree left left' hleft

theorem climb (h : Agree p q) (hleft : unplacedChild left = unplacedChild left') :
    Alike unplacedChild (p.climb rank left) (q.climb rank left') := by
  -- Both take the same branch, since they see the same kind next. The weight of the first parser
  -- drops in the right operand, and once more behind it.
  induction hweight : p.weight using Nat.strongRecOn generalizing p q rank left left' with
  | ind n ih =>
    subst hweight
    by_cases hext : p.peek.kind.Extends rank
    · have hext' : q.peek.kind.Extends rank := h.kind_peek ▸ hext
      have hlt : p.advance.advance.weight < p.weight := by
        obtain ⟨level, hlevel⟩ := Option.isSome_iff_exists.mp hext.1
        exact weight_two_advances hlevel
      have hright : Alike unplacedChild (p.advance.advance.expression p.peek.kind.rank)
          (q.advance.advance.expression p.peek.kind.rank) := by
        apply h.advance.advance.expression_of_climb
        intro p' q' hle hagree left left' hleft
        exact ih _ (Nat.lt_of_le_of_lt hle hlt) hagree hleft rfl
      rw [climb_step hext, climb_step hext', ← h.kind_peek]
      apply hright.andThen
      intro right right' hrights
      apply ih _ _ hright.agree _ rfl
      · exact Nat.lt_of_le_of_lt (p.advance.advance.expression_weight_le _) hlt
      · simp only [Node.mapChild, Node.mapTokens, h.peek, h.literal_peek, hleft, hrights]
    · have hext' : ¬ q.peek.kind.Extends rank := h.kind_peek ▸ hext
      rw [climb_stop hext, climb_stop hext']
      exact .ok hleft h

theorem expression (h : Agree p q) :
    Alike unplacedChild (p.expression rank) (q.expression rank) := by
  apply h.expression_of_climb
  intro p' q' _ hagree left left' hleft
  exact hagree.climb hleft

/-! ## Statements -/

/-- A value with the semicolon behind it. -/
theorem value {α β : Type} {erase : α → β} {f g : Option Node → α} (h : Agree p q)
    (hfg : ∀ v w, unplacedChild v = unplacedChild w → erase (f v) = erase (g w)) :
    Alike erase
      ((p.expression rank).andThen fun v p' => (.ok (f v), p'.skipSemicolon))
      ((q.expression rank).andThen fun w q' => (.ok (g w), q'.skipSemicolon)) := by
  have hvalue : Alike unplacedChild (p.expression rank) (q.expression rank) := h.expression
  apply hvalue.andThen
  intro v w hvw
  exact .ok (hfg v w hvw) hvalue.agree.skipSemicolon

theorem letStatement (h : Agree p q) : Alike unplacedChild p.letStatement q.letStatement := by
  unfold Parser.letStatement expect
  rw [← h.kind_peek]
  by_cases hname : p.peek.kind = .ident
  · simp only [if_pos hname, ← h.advance.kind_peek]
    by_cases hsign : p.advance.peek.kind = .assign
    · simp only [if_pos hsign]
      apply h.advance.advance.advance.value
      intro v w hvw
      have hidentifier := h.advance.identifier
      simp only [Node.unplaced] at hidentifier
      simp only [Node.mapChild, Node.mapTokens, h.cur, hidentifier, hvw]
    · simp only [if_neg hsign]
      exact .ok rfl (h.advance.diagnose _)
  · simp only [if_neg hname]
    exact .ok rfl (h.diagnose _)

theorem returnStatement (h : Agree p q) :
    Alike Node.unplaced p.returnStatement q.returnStatement := by
  apply h.advance.value
  intro v w hvw
  simp only [Node.unplaced, Node.mapTokens, h.cur, hvw]

theorem expressionStatement (h : Agree p q) :
    Alike Node.unplaced p.expressionStatement q.expressionStatement := by
  apply h.value
  intro v w hvw
  simp only [Node.unplaced, Node.mapTokens, h.cur, hvw]

theorem statement (h : Agree p q) : Alike unplacedChild p.statement q.statement := by
  unfold Parser.statement
  rw [← h.kind_cur]
  split
  · exact h.letStatement
  · exact h.returnStatement.map fun a b hab => congrArg some hab
  · exact h.expressionStatement.map fun a b hab => congrArg some hab

/-! ## Programs -/

theorem statements (h : Agree p q) :
    Alike (Node.mapAll Token.unplaced) p.statements q.statements := by
  induction hweight : p.weight using Nat.strongRecOn generalizing p q with
  | ind n ih =>
    subst hweight
    rw [statements_eq, statements_eq, ← h.kind_cur]
    by_cases heof : p.cur.kind = .eof
    · rw [if_pos heof, if_pos heof]
      exact .ok rfl h
    · rw [if_neg heof, if_neg heof]
      have hstatement := h.statement
      apply hstatement.andThen
      intro s s' hs
      have hrest := ih _ (statement_advance_weight_lt heof) hstatement.agree.advance rfl
      apply hrest.map
      intro ss ss' hss
      cases s <;> cases s' <;> simp_all [Node.mapChild, Node.mapAll]

theorem program (h : Agree p q) : Alike Node.unplaced p.program q.program := by
  have hstatements := h.statements
  apply hstatements.andThen
  intro ss ss' hss
  exact .ok (congrArg Node.program hss) (hstatements.agree.note rfl)

end Agree

end MonkeySyntax.Parser
