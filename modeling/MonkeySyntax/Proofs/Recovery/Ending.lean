import MonkeySyntax.Proofs.Recovery.Semicolon

/-!
# The end of a program

The last token of a run is that of its last operand. If it starts no operand, it stands in the place
of one, and the last diagnostic says so. Hence a statement without a diagnostic that ends with a
semicolon owns it, and a reading that went on to the end of input reports that last.
-/

namespace MonkeySyntax.Recovery

theorem Atom.diagnostics_of_operandRule? {a : Atom} (h : a.WellFormed)
    (hrule : a.token.kind.operandRule? = none) : a.diagnostics = [.noOperand a.token.kind] := by
  cases a with
  | leaf l =>
    cases l with
    | identifier t =>
      have hkind : t.kind = .ident := h
      simp [token, Grammar.Leaf.token, hkind, TokenKind.operandRule?] at hrule
    | integer t v =>
      have hkind : t.kind = .int := h.1
      simp [token, Grammar.Leaf.token, hkind, TokenKind.operandRule?] at hrule
  | badInteger t =>
    have hkind : t.kind = .int := h.1
    simp [token, hkind, TokenKind.operandRule?] at hrule
  | missing t => rfl

namespace Run

variable {w : Run}

/-- The operand that a run ends with. -/
def last (w : Run) : Operand := (w.rest.getLast?.map Prod.snd).getD w.first

theorem wellFormed_last (h : w.WellFormed) : w.last.WellFormed := by
  unfold last
  cases hrest : w.rest.getLast? with
  | none => exact h.1
  | some x => exact (h.2.2 x (List.mem_of_getLast? hrest)).2

/-- The last operand ends the tokens, and what it lacks is reported last. -/
theorem exists_append_last (w : Run) :
    (∃ ts, w.tokens = ts ++ [w.last.atom.token]) ∧
      ∃ ds, w.diagnostics = ds ++ w.last.atom.diagnostics := by
  obtain ⟨first, rest⟩ := w
  rcases List.eq_nil_or_concat' rest with rfl | ⟨xs, x, rfl⟩
  · exact ⟨⟨first.operators, List.append_nil _⟩, ⟨[], List.append_nil _⟩⟩
  · have hlast : last ⟨first, xs ++ [x]⟩ = x.2 := by simp [last]
    rw [hlast]
    constructor
    · refine ⟨first.tokens ++ xs.flatMap Link.tokens ++ x.1 :: x.2.operators, ?_⟩
      simp [tokens, Link.tokens, Operand.tokens]
    · refine ⟨first.atom.diagnostics ++ xs.flatMap fun y => y.2.atom.diagnostics, ?_⟩
      simp [diagnostics]

theorem getLast?_tokens (w : Run) : w.tokens.getLast? = some w.last.atom.token := by
  obtain ⟨⟨ts, hts⟩, -⟩ := w.exists_append_last
  rw [hts, List.getLast?_concat]

theorem getLast?_diagnostics (h : w.WellFormed)
    (hrule : w.last.atom.token.kind.operandRule? = none) :
    w.diagnostics.getLast? = some (.noOperand w.last.atom.token.kind) := by
  obtain ⟨-, ds, hds⟩ := w.exists_append_last
  rw [hds, Atom.diagnostics_of_operandRule? (wellFormed_last h).2 hrule, List.getLast?_concat]

end Run

namespace Statement

theorem getLast?_tokens_open {lead : Lead} {value : Run} :
    (full lead value none).tokens.getLast? = some value.last.atom.token := by
  rw [tokens, Option.toList_none, List.append_nil, List.getLast?_append, value.getLast?_tokens,
    Option.some_or]

/-- A statement without a diagnostic ends in an operand or in a semicolon of its own. -/
theorem endsBefore_of_clean {s : Statement} (h : s.WellFormed) (hclean : s.diagnostics = [])
    {next : Token} (hnext : s.tokens.getLast?.map Token.kind = some .semicolon ∨
      next.kind ≠ .semicolon ∧ next.kind.isInfix = false) : s.EndsBefore next := by
  cases s with
  | nameless | signless => cases hclean
  | full lead value semicolon =>
    intro hnone
    subst hnone
    rcases hnext with hlast | ⟨hsemi, hoperator⟩
    · rw [getLast?_tokens_open, Option.map_some, Option.some_inj] at hlast
      have hrule : value.last.atom.token.kind.operandRule? = none := by
        rw [hlast]
        rfl
      have hmissing := value.getLast?_diagnostics h.2.1 hrule
      rw [show value.diagnostics = [] from hclean] at hmissing
      cases hmissing
    · refine ⟨hsemi, Or.inr fun hext => ?_⟩
      have hoperation := hext.1
      rw [hoperator] at hoperation
      cases hoperation

end Statement

namespace Program

variable {ss : List Statement} {next : Token}

/-- Statements without a diagnostic stand in front of whatever goes on with none of them. -/
theorem chained_of_clean {next' : Token} (h : Chained ss next) (hclean : diagnostics ss = [])
    (hnext : (tokens ss).getLast?.map Token.kind = some .semicolon ∨
      next'.kind ≠ .semicolon ∧ next'.kind.isInfix = false) : Chained ss next' := by
  rcases List.eq_nil_or_concat' ss with rfl | ⟨before, last, rfl⟩
  · trivial
  · rw [getLast?_tokens_concat] at hnext
    have hwf := wellFormed_of_chained h last (by simp)
    rw [diagnostics_append] at hclean
    have hlast : last.diagnostics = [] := by
      simpa [diagnostics] using (List.append_eq_nil_iff.mp hclean).2
    exact chained_concat_of_endsBefore h (last.endsBefore_of_clean hwf hlast hnext)

end Program

namespace Reads

variable {ts : List Token} {ss : List Statement}

/-- The end of input is missed as an operand at most once. -/
theorem count_eof_le_one (h : Reads ts ss) (hts : ∀ t ∈ ts, t.kind ≠ .eof) :
    (Program.diagnostics ss).count (.noOperand .eof) ≤ 1 := by
  have hlength := h.length_tokens hts
  rcases h.tokens with heq | heq
  · rw [heq] at hlength
    omega
  · rw [heq, List.length_append, List.length_singleton] at hlength
    omega

/-- Where the end of input is missed as an operand, nothing is reported after it. -/
theorem getLast?_diagnostics (h : Reads ts ss) (hts : ∀ t ∈ ts, t.kind ≠ .eof)
    (heof : .noOperand .eof ∈ Program.diagnostics ss) :
    (Program.diagnostics ss).getLast? = some (.noOperand .eof) := by
  obtain ⟨htokens, before, lead, value, rfl, -⟩ := h.last_of_eof hts heof
  have hwf := h.wellFormed (.full lead value none) (by simp)
  have hend := congrArg List.getLast? htokens
  rw [Program.getLast?_tokens_concat, Statement.getLast?_tokens_open, List.getLast?_concat,
    Option.some_inj] at hend
  have hmissing := value.getLast?_diagnostics hwf.2.1 (by rw [hend]; rfl)
  rw [hend] at hmissing
  rw [Program.diagnostics_append, List.getLast?_append]
  simp [Program.diagnostics, Statement.diagnostics, hmissing, Token.endOfInput]

end Reads

end MonkeySyntax.Recovery
