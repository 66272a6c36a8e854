import MonkeySyntax.Proofs.Recovery.Ending

/-!
# Parsing piece by piece

Tokens that parse without a diagnostic may be put in front of any others, unless these go on with
the last statement: their statements come first and nothing else changes. Behind them the parser is
as one that starts there. What goes on with a statement is a semicolon or an infix operator, and
nothing goes on with a statement that has its semicolon.
-/

namespace MonkeySyntax.Parser

open Recovery

/-- What follows cannot go on with the last statement of the tokens in front. -/
def Separated (ts us : List Token) : Prop :=
  ts = [] ∨ ts.getLast?.map Token.kind = some .semicolon ∨ us = [] ∨
    ∃ u rest, us = u :: rest ∧ u.kind ≠ .semicolon ∧ u.kind.isInfix = false

instance (ts us : List Token) : Decidable (Separated ts us) :=
  decidable_of_iff (ts = [] ∨ ts.getLast?.map Token.kind = some .semicolon ∨
      ∀ u ∈ us.head?, u.kind ≠ .semicolon ∧ u.kind.isInfix = false) <| by
    cases us <;> simp [Separated]

variable {ts us : List Token} {ss rs : List Statement}

/-- Statements without a diagnostic stand in front of those that the tokens behind are read as. -/
theorem chained_of_separated (hss : Reads ts ss) (hclean : Program.diagnostics ss = [])
    (htokens : Program.tokens ss = ts) (hrs : Reads us rs) (hseparated : Separated ts us) :
    Program.Chained ss (Program.head rs .endOfInput) := by
  have hhead : Program.head rs .endOfInput = us.headD .endOfInput := by
    rw [Program.head_eq_headD]
    rcases hrs.tokens with heq | heq
    · rw [heq]
    · rw [heq]
      cases us <;> rfl
  rw [hhead]
  subst htokens
  rcases hseparated with hnil | hsemi | rfl | ⟨u, rest, rfl, hu⟩
  · rw [Program.tokens_eq_nil_iff.mp hnil]
    trivial
  · exact Program.chained_of_clean hss.chained hclean (Or.inl hsemi)
  · exact hss.chained
  · exact Program.chained_of_clean hss.chained hclean (Or.inr hu)

/-- The parser that passed the first tokens sees what one sees that starts on the others. -/
theorem ahead_forward_ofList (i : Nat) :
    ((ofSource (TokenQueue.ofList (ts ++ us))).forward ts.length).ahead i =
      (ofSource (TokenQueue.ofList us)).ahead i := by
  rw [ahead_forward, ahead_ofSource_ofList, ahead_ofSource_ofList,
    List.getD_append_right _ _ _ _ (Nat.le_add_right _ _), Nat.add_sub_cancel_left]

/-- Statements that are read first are followed by those of the parser that has passed them. -/
theorem FacesProgram.statements_append {σ : Type} [TokenSource σ] {p : Parser σ}
    (h : p.FacesProgram (ss ++ rs)) :
    p.statements =
      (p.follow (Program.moves ss)).statements.map fun rest => Program.trees ss ++ rest := by
  obtain ⟨hchained, hfaces, -⟩ := h
  rw [Program.tokens_append, faces_append] at hfaces
  rw [Program.tokens_append, List.length_append, Program.chained_append] at hchained
  have hhead := head_eq_of_faces hfaces.2
  rw [cur_forward, ahead_forward] at hhead
  apply statements_eq_map hfaces.1
  rw [hhead]
  exact hchained.1

/-- Tokens that parse without a diagnostic may be put in front of any that do not go on with them.
The statements of both stand in a row, and the diagnostics are those of the second. Nothing but the
place in the tokens is carried over. -/
theorem parse_append (hts : ∀ t ∈ ts, t.kind ≠ .eof) (hus : ∀ t ∈ us, t.kind ≠ .eof)
    (hlimit : ∀ t ∈ us, t.WithinLimit) (hseparated : Separated ts us) {k : Node}
    {r : Parser TokenQueue} (hparse : parse (TokenQueue.ofList ts) = (.ok k, r))
    (hclean : r.diagnostics = []) :
    ∃ n p q, parse (TokenQueue.ofList us) = (.ok n, p) ∧
      parse (TokenQueue.ofList (ts ++ us)) = (.ok (.program (k.statements ++ n.statements)), q) ∧
      q.diagnostics = p.diagnostics ∧
      let whole := ofSource (TokenQueue.ofList (ts ++ us))
      let boundary := whole.forward ts.length
      whole.statements = boundary.statements.map (fun rest => k.statements ++ rest) ∧
        boundary.diagnostics = [] ∧
        ∀ i, boundary.ahead i = (ofSource (TokenQueue.ofList us)).ahead i := by
  obtain ⟨ss, hss⟩ := reads_of_parse hts hparse
  obtain ⟨rfl, hdiagnostics⟩ := eq_of_reads hss hparse
  have hssclean := hdiagnostics.symm.trans hclean
  have htokens := hss.tokens_eq hts (by simp [hssclean])
  obtain ⟨rs, hrs⟩ := exists_reads hus hlimit
  obtain ⟨p, hp, hpdiag⟩ := parse_of_reads hrs
  have hchained := chained_of_separated hss hssclean htokens hrs hseparated
  have hboth : Reads (ts ++ us) (ss ++ rs) := .append htokens hrs hchained
  obtain ⟨q, hq, hqdiag⟩ := parse_of_reads hboth
  refine ⟨_, p, q, hp, ?_, ?_, ?_, ?_, ahead_forward_ofList⟩
  · rw [hq, Program.trees_append]
    rfl
  · rw [hqdiag, hpdiag, Program.diagnostics_append, hssclean, List.nil_append]
  · have hmoves : Move.diagnostics (Program.moves ss) = [] := by
      rw [Program.diagnostics_moves, hssclean]
    rw [(facesProgram_of_reads hboth).statements_append, follow_eq_forward hmoves,
      Program.advances_moves, htokens]
    rfl
  · rw [diagnostics_forward, diagnostics_ofSource]

/-- A minus sign behind `a ;` starts a statement, also where that one is malformed. -/
theorem parse_append_missingOperand :
    let ts : List Token := [⟨.ident, "a", 1, 1⟩, ⟨.semicolon, ";", 1, 2⟩]
    let us : List Token := [⟨.minus, "-", 1, 4⟩, ⟨.rparen, ")", 1, 5⟩]
    ∃ k r n p q, parse (TokenQueue.ofList ts) = (.ok k, r) ∧ r.diagnostics = [] ∧
      parse (TokenQueue.ofList us) = (.ok n, p) ∧ p.diagnostics = [.noOperand .rparen] ∧
      parse (TokenQueue.ofList (ts ++ us)) = (.ok (.program (k.statements ++ n.statements)), q) ∧
      q.diagnostics = p.diagnostics := by
  intro ts us
  have hfront : Reads ts [.full .plain ⟨⟨[], .leaf (.identifier ⟨.ident, "a", 1, 1⟩)⟩, []⟩
      (some ⟨.semicolon, ";", 1, 2⟩)] := ⟨by decide, Or.inl rfl⟩
  have hbehind : Reads us [.full .plain ⟨⟨[⟨.minus, "-", 1, 4⟩],
      .missing ⟨.rparen, ")", 1, 5⟩⟩, []⟩ none] := ⟨by decide, Or.inl rfl⟩
  have hlimit : ∀ t ∈ us, t.WithinLimit := Token.forall_withinLimit (by decide)
  obtain ⟨r, hr, hclean⟩ := parse_of_reads hfront
  obtain ⟨n, p, q, hn, hq, hdiag, -⟩ :=
    parse_append (by decide) (by decide) hlimit (by decide) hr hclean
  obtain ⟨-, hmissing⟩ := eq_of_reads hbehind hn
  exact ⟨_, r, n, p, q, hr, hclean, hn, hmissing, hq, hdiag⟩

end MonkeySyntax.Parser
