import MonkeySyntax.Proofs.Recovery.Join
import MonkeySyntax.Proofs.Recovery.Reading

/-!
# Acceptance

A parse leaves no diagnostic exactly on the tokens of a program of the grammar. From a clean parse
the statements that were read are the derivation. The other way round the given derivation need not
be the one that the parser finds, since a minus sign may go with either of two statements; joining
gives the statements that it does find.
-/

namespace MonkeySyntax

namespace Recovery.Program

variable {ss : List Statement}

theorem diagnostics_eq_nil_iff : diagnostics ss = [] ↔ ∀ s ∈ ss, s.diagnostics = [] :=
  List.flatMap_eq_nil_iff

theorem isProgram_tokens (hwf : ∀ s ∈ ss, s.WellFormed) (hclean : ∀ s ∈ ss, s.diagnostics = []) :
    Grammar.IsProgram (tokens ss) := by
  induction ss with
  | nil => exact Grammar.isProgram_nil
  | cons s ss ih =>
    obtain ⟨hs, hss⟩ := List.forall_mem_cons.mp hwf
    obtain ⟨hsclean, hssclean⟩ := List.forall_mem_cons.mp hclean
    obtain ⟨g, rfl⟩ := s.exists_ofGrammar hsclean
    have hg := Grammar.Statement.isProgram (Statement.wellFormed_ofGrammar.mp hs)
    rw [tokens_cons, Statement.tokens_ofGrammar]
    exact hg.append (ih hss hssclean)

/-- The tokens of the grammar are those of statements that the parser reads. -/
theorem exists_reads_of_isProgram {ts : List Token} (h : Grammar.IsProgram ts) :
    ∃ rs, Reads ts rs ∧ diagnostics rs = [] := by
  obtain ⟨gs, hgs, rfl⟩ := h
  have hwf : ∀ s ∈ gs.map Statement.ofGrammar, s.WellFormed :=
    List.forall_mem_map.mpr fun g hg => Statement.wellFormed_ofGrammar.mpr (hgs g hg)
  have hclean : ∀ s ∈ gs.map Statement.ofGrammar, s.diagnostics = [] :=
    List.forall_mem_map.mpr fun g _ => Statement.diagnostics_ofGrammar g
  obtain ⟨rs, hchained, htokens, hdiagnostics⟩ := exists_chained hwf hclean
  refine ⟨rs, ⟨hchained, Or.inl ?_⟩, hdiagnostics⟩
  rw [htokens, tokens, List.flatMap_map]
  simp only [Statement.tokens_ofGrammar]

end Recovery.Program

namespace Parser

open Recovery

theorem isProgram_of_parse {ts : List Token} (hts : ∀ t ∈ ts, t.kind ≠ .eof) {n : Node}
    {p : Parser TokenQueue} (hparse : parse (TokenQueue.ofList ts) = (.ok n, p))
    (hclean : p.diagnostics = []) : Grammar.IsProgram ts := by
  obtain ⟨ss, hss⟩ := reads_of_parse hts hparse
  obtain ⟨-, hdiagnostics⟩ := eq_of_reads hss hparse
  rw [hclean] at hdiagnostics
  have htokens := hss.tokens_eq hts (by simp [← hdiagnostics])
  rw [← htokens]
  exact Program.isProgram_tokens hss.wellFormed
    (Program.diagnostics_eq_nil_iff.mp hdiagnostics.symm)

/-- The parser accepts exactly the language of programs. -/
theorem parse_clean_iff_isProgram {ts : List Token} (hts : ∀ t ∈ ts, t.kind ≠ .eof) :
    (∃ n p, parse (TokenQueue.ofList ts) = (.ok n, p) ∧ p.diagnostics = []) ↔
      Grammar.IsProgram ts := by
  constructor
  · rintro ⟨n, p, hparse, hclean⟩
    exact isProgram_of_parse hts hparse hclean
  · intro h
    obtain ⟨rs, hreads, hclean⟩ := Program.exists_reads_of_isProgram h
    obtain ⟨p, hparse, hdiagnostics⟩ := parse_of_reads hreads
    exact ⟨_, p, hparse, hdiagnostics.trans hclean⟩

/-- The statements `a` and `-7;`, with no semicolon between them. -/
def neighbours : List Grammar.Statement :=
  [⟨.expression ⟨⟨[], .identifier ⟨.ident, "a", 1, 1⟩⟩, []⟩, none⟩,
    ⟨.expression ⟨⟨[⟨.minus, "-", 1, 3⟩], .integer ⟨.int, "7", 1, 4⟩ 7⟩, []⟩,
      some ⟨.semicolon, ";", 1, 5⟩⟩]

theorem neighbours_wellFormed : ∀ s ∈ neighbours, s.WellFormed := by
  have hseven : readInt64 "7" = .ok (some 7) := by decide
  simp [neighbours, Grammar.Statement.WellFormed, Grammar.Clause.WellFormed,
    Grammar.Run.WellFormed, Grammar.Operand.WellFormed, Grammar.Leaf.WellFormed,
    TokenKind.isUnary, hseven]

/-- The tokens of both are accepted; they are those of `a - 7;` as well. -/
theorem parse_neighbours :
    let ts := neighbours.flatMap Grammar.Statement.tokens
    (∀ t ∈ ts, t.kind ≠ .eof) ∧
      ∃ n p, parse (TokenQueue.ofList ts) = (.ok n, p) ∧ p.diagnostics = [] := by
  intro ts
  have hts : ∀ t ∈ ts, t.kind ≠ .eof := by decide
  exact ⟨hts, (parse_clean_iff_isProgram hts).mpr ⟨neighbours, neighbours_wellFormed, rfl⟩⟩

end Parser

end MonkeySyntax
