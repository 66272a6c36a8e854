import MonkeySyntax.Proofs.Recovery.Join
import MonkeySyntax.Proofs.Recovery.Semicolon

/-!
# Going on behind a semicolon

Tokens that are a program on their own give the same statements behind a semicolon, whatever stands
in front of it, with one exception: where an operand is missing in front of the semicolon, the
semicolon is passed over in its place, and a minus sign behind it is taken for an infix operator. No
diagnostic tells the two apart.
-/

namespace MonkeySyntax.Parser

open Recovery

/-- On their own the tokens give out inside of an expression that has a tree all the same. -/
def BreaksOff (ts : List Token) : Prop :=
  ∃ n p r, parse (TokenQueue.ofList ts) = (.ok n, p) ∧ .noOperand .eof ∈ p.diagnostics ∧
    n.statements.getLast? = some r ∧ r.value? ≠ none

variable {ts us : List Token} {ss rs : List Statement} {s : Token}

theorem breaksOff_iff (h : Reads ts ss) :
    BreaksOff ts ↔ .noOperand .eof ∈ Program.diagnostics ss ∧
      ∃ r, (Program.trees ss).getLast? = some r ∧ r.value? ≠ none := by
  constructor
  · rintro ⟨n, p, r, hparse, heof, hlast, hvalue⟩
    obtain ⟨rfl, hdiagnostics⟩ := eq_of_reads h hparse
    exact ⟨hdiagnostics ▸ heof, r, hlast, hvalue⟩
  · rintro ⟨heof, r, hlast, hvalue⟩
    obtain ⟨q, hparse, hdiagnostics⟩ := parse_of_reads h
    exact ⟨_, q, r, hparse, hdiagnostics.symm ▸ heof, hlast, hvalue⟩

theorem exists_open_of_breaksOff (h : Reads ts ss) (hts : ∀ t ∈ ts, t.kind ≠ .eof)
    (hs : s.kind = .semicolon) (hbreaks : BreaksOff ts) :
    ∃ before lead value, Program.tokens (before ++ [.full lead value none]) = ts ++ [s] ∧
      Program.Chained (before ++ [.full lead value none]) .endOfInput ∧
      value.first.bare = false := by
  obtain ⟨heof, r, hlast, hvalue⟩ := (breaksOff_iff h).mp hbreaks
  obtain ⟨before, lead, value, htokens, hchained, r', hlast', hbare⟩ :=
    h.exists_semicolon_of_eof hts hs heof
  obtain rfl := Option.some.inj (hlast.symm.trans hlast')
  refine ⟨before, lead, value, htokens, hchained, ?_⟩
  rw [← Bool.not_eq_true, ← hbare]
  exact hvalue

theorem exists_closed_of_not_breaksOff (h : Reads ts ss) (hts : ∀ t ∈ ts, t.kind ≠ .eof)
    (hs : s.kind = .semicolon) (hbreaks : ¬ BreaksOff ts) :
    ∃ rs, Program.tokens rs = ts ++ [s] ∧
      ∀ next : Token, next.kind ≠ .semicolon → Program.Chained rs next := by
  by_cases heof : .noOperand .eof ∈ Program.diagnostics ss
  · obtain ⟨before, lead, value, htokens, hchained, r, hlast, hbare⟩ :=
      h.exists_semicolon_of_eof hts hs heof
    have hnone : r.value? = none := by
      by_contra hvalue
      exact hbreaks ((breaksOff_iff h).mpr ⟨heof, r, hlast, hvalue⟩)
    refine ⟨_, htokens, fun next hnext => ?_⟩
    exact Program.chained_concat_of_endsBefore hchained fun _ => ⟨hnext, Or.inl (hbare.mp hnone)⟩
  · exact h.exists_semicolon_of_tokens hs (h.tokens_eq hts heof)

/-- Statements that end at the semicolon are followed by those behind it. -/
theorem parse_eq_append (hrs : Program.tokens rs = ts ++ [s])
    (hchained : Program.Chained rs .endOfInput)
    (hnext : Program.Chained rs (Program.head ss .endOfInput)) (hss : Reads us ss)
    (htokens : Program.tokens ss = us) (hclean : Program.diagnostics ss = []) :
    ∃ n p m q, parse (TokenQueue.ofList (ts ++ [s])) = (.ok n, p) ∧
      parse (TokenQueue.ofList (ts ++ s :: us)) = (.ok m, q) ∧ q.diagnostics = p.diagnostics ∧
      m.statements = n.statements ++ Program.trees ss := by
  obtain ⟨p, hp, hpdiag⟩ := parse_of_reads ⟨hchained, Or.inl hrs⟩
  have hboth : Reads (ts ++ s :: us) (rs ++ ss) := by
    refine ⟨Program.chained_append.mpr ⟨hnext, hss.chained⟩, Or.inl ?_⟩
    rw [Program.tokens_append, hrs, htokens, List.append_assoc]
    rfl
  obtain ⟨q, hq, hqdiag⟩ := parse_of_reads hboth
  refine ⟨_, p, _, q, hp, hq, ?_, Program.trees_append⟩
  rw [hqdiag, hpdiag, Program.diagnostics_append, hclean, List.append_nil]

/-- Behind a missing operand a minus sign joins the statement that it starts to the one before. -/
theorem parse_joins {before : List Statement} {lead : Lead} {value : Run}
    (hrs : Program.tokens (before ++ [.full lead value none]) = ts ++ [s])
    (hchained : Program.Chained (before ++ [.full lead value none]) .endOfInput)
    (hbare : value.first.bare = false) (hss : Reads us ss) (htokens : Program.tokens ss = us)
    (hclean : Program.diagnostics ss = [])
    (hminus : (Program.head ss .endOfInput).kind = .minus) :
    ∃ n p m q, parse (TokenQueue.ofList (ts ++ [s])) = (.ok n, p) ∧
      parse (TokenQueue.ofList (ts ++ s :: us)) = (.ok m, q) ∧ q.diagnostics = p.diagnostics ∧
      m.statements.length + 1 = n.statements.length + (Program.trees ss).length := by
  obtain ⟨p, hp, hpdiag⟩ := parse_of_reads ⟨hchained, Or.inl hrs⟩
  obtain ⟨hbefore, hwf, heof, -, -⟩ := Program.chained_append.mp hchained
  cases ss with
  | nil => cases hminus
  | cons b bs =>
    obtain ⟨hb, -, hends, hbs⟩ := hss.chained
    obtain ⟨m, hm⟩ := Statement.exists_joins hwf hbare hb hminus
    have hboth : Reads (ts ++ s :: us) (before ++ m :: bs) := by
      refine ⟨Program.chained_append.mpr ⟨?_, hm.wellFormed, ?_, hm.ends _ hends, hbs⟩, Or.inl ?_⟩
      · rw [Program.head_cons, hm.head]
        exact hbefore
      · rw [hm.head]
        exact heof
      · rw [Program.tokens_append, Program.tokens_cons, Program.tokens_nil, List.append_nil] at hrs
        rw [Program.tokens_append, Program.tokens_cons, hm.tokens, List.append_assoc,
          ← Program.tokens_cons, htokens, ← List.append_assoc, hrs, List.append_assoc]
        rfl
    obtain ⟨q, hq, hqdiag⟩ := parse_of_reads hboth
    refine ⟨_, p, _, q, hp, hq, ?_, ?_⟩
    · have hjoined : Program.diagnostics (m :: bs) =
          Program.diagnostics [.full lead value none] := by
        rw [Program.diagnostics_cons, hm.diagnostics, List.append_assoc,
          ← Program.diagnostics_cons, hclean]
        rfl
      rw [hqdiag, hpdiag, Program.diagnostics_append, Program.diagnostics_append, hjoined]
    · obtain ⟨hs, hb, hm⟩ := hm.trees
      obtain ⟨_, hs⟩ := Option.isSome_iff_exists.mp hs
      obtain ⟨_, hb⟩ := Option.isSome_iff_exists.mp hb
      obtain ⟨_, hm⟩ := Option.isSome_iff_exists.mp hm
      simp only [Node.statements_program, Program.trees_append, Program.trees_cons, hs, hb, hm,
        List.length_append, Option.toList_some, List.length_singleton]
      have hnil : (Program.trees []).length = 0 := rfl
      omega

theorem head?_kind_iff {kind : TokenKind} (htokens : Program.tokens ss = us)
    (hkind : kind ≠ .eof) :
    us.head?.map Token.kind = some kind ↔ (Program.head ss .endOfInput).kind = kind := by
  rw [Program.head_eq_headD, htokens]
  cases us with
  | nil => simp [Token.endOfInput, hkind.symm]
  | cons u us => simp

/-- Behind a semicolon a program is read as it is on its own, unless the semicolon stands in the
place of an operand and the program starts with a minus sign; then two statements become one. -/
theorem parse_behind_semicolon (hts : ∀ t ∈ ts, t.kind ≠ .eof)
    (hlimit : ∀ t ∈ ts, t.WithinLimit) (hs : s.kind = .semicolon)
    (hus : ∀ t ∈ us, t.kind ≠ .eof) {k : Node} {r : Parser TokenQueue}
    (hparse : parse (TokenQueue.ofList us) = (.ok k, r)) (hclean : r.diagnostics = []) :
    ∃ n p m q, parse (TokenQueue.ofList (ts ++ [s])) = (.ok n, p) ∧
      parse (TokenQueue.ofList (ts ++ s :: us)) = (.ok m, q) ∧ q.diagnostics = p.diagnostics ∧
      (m.statements = n.statements ++ k.statements ↔
        ¬ (BreaksOff ts ∧ us.head?.map Token.kind = some .minus)) ∧
      (BreaksOff ts ∧ us.head?.map Token.kind = some .minus →
        m.statements.length + 1 = n.statements.length + k.statements.length) := by
  obtain ⟨ss, hss⟩ := exists_reads hts hlimit
  obtain ⟨bs, hbs⟩ := reads_of_parse hus hparse
  obtain ⟨rfl, hdiagnostics⟩ := eq_of_reads hbs hparse
  rw [hclean] at hdiagnostics
  have hbsclean := hdiagnostics.symm
  have htokens := hbs.tokens_eq hus (by simp [hbsclean])
  obtain ⟨hsemi, hoperator⟩ := Program.head_of_clean hbs.chained hbsclean
  rw [head?_kind_iff htokens (by decide)]
  by_cases hbreaks : BreaksOff ts
  · obtain ⟨before, lead, value, hrs, hchained, hbare⟩ :=
      exists_open_of_breaksOff hss hts hs hbreaks
    by_cases hminus : (Program.head bs .endOfInput).kind = .minus
    · obtain ⟨n, p, m, q, hn, hm, hdiag, hlength⟩ :=
        parse_joins hrs hchained hbare hbs htokens hbsclean hminus
      refine ⟨n, p, m, q, hn, hm, hdiag, ⟨fun heq => ?_, fun h => ?_⟩, fun _ => hlength⟩
      · rw [heq, List.length_append, Node.statements_program] at hlength
        omega
      · exact absurd ⟨hbreaks, hminus⟩ h
    · have hnext := Program.chained_concat_of_endsBefore hchained fun _ =>
        ⟨hsemi, Or.inr fun h => hminus (hoperator h.1)⟩
      obtain ⟨n, p, m, q, hn, hm, hdiag, heq⟩ :=
        parse_eq_append hrs hchained hnext hbs htokens hbsclean
      refine ⟨n, p, m, q, hn, hm, hdiag, ⟨fun _ h => hminus h.2, fun _ => heq⟩, fun h => ?_⟩
      exact absurd h.2 hminus
  · obtain ⟨rs, hrs, hclosed⟩ := exists_closed_of_not_breaksOff hss hts hs hbreaks
    obtain ⟨n, p, m, q, hn, hm, hdiag, heq⟩ :=
      parse_eq_append hrs (hclosed _ (by decide)) (hclosed _ hsemi) hbs htokens hbsclean
    refine ⟨n, p, m, q, hn, hm, hdiag, ⟨fun _ h => hbreaks h.1, fun _ => heq⟩, fun h => ?_⟩
    exact absurd h.1 hbreaks

/-- A name behind `! ;` is a statement of its own. -/
theorem parse_name_behind_bang :
    let bang : Token := ⟨.bang, "!", 1, 1⟩
    let semicolon : Token := ⟨.semicolon, ";", 1, 3⟩
    let x : Token := ⟨.ident, "x", 1, 5⟩
    ∃ n p m q k r, parse (TokenQueue.ofList [x]) = (.ok k, r) ∧ r.diagnostics = [] ∧
      parse (TokenQueue.ofList [bang, semicolon]) = (.ok n, p) ∧
      parse (TokenQueue.ofList [bang, semicolon, x]) = (.ok m, q) ∧
      q.diagnostics = p.diagnostics ∧ m.statements = n.statements ++ k.statements := by
  intro bang semicolon x
  have hlimit : ∀ t ∈ [bang], t.WithinLimit := by simp [bang, Token.WithinLimit]
  have hx : Reads [x] [.full .plain ⟨⟨[], .leaf (.identifier x)⟩, []⟩ none] :=
    ⟨by decide, Or.inl rfl⟩
  obtain ⟨r, hr, hclean⟩ := parse_of_reads hx
  obtain ⟨n, p, m, q, hn, hm, hdiag, heq, -⟩ :=
    parse_behind_semicolon (by decide) hlimit (s := semicolon) rfl (by decide) hr hclean
  refine ⟨n, p, m, q, _, r, hr, hclean, hn, hm, hdiag, heq.mpr ?_⟩
  rintro ⟨-, hminus⟩
  cases hminus

/-- A minus sign behind `! ;` is taken for an infix operator, so that `! ; - 1` is one statement. -/
theorem not_parse_behind_semicolon :
    ¬ ∀ (ts us : List Token) (s : Token), (∀ t ∈ ts, t.kind ≠ .eof) →
      (∀ t ∈ ts, t.WithinLimit) → s.kind = .semicolon → (∀ t ∈ us, t.kind ≠ .eof) →
      ∀ k r n p m q, parse (TokenQueue.ofList us) = (.ok k, r) → r.diagnostics = [] →
        parse (TokenQueue.ofList (ts ++ [s])) = (.ok n, p) →
        parse (TokenQueue.ofList (ts ++ s :: us)) = (.ok m, q) →
        m.statements = n.statements ++ k.statements ∧ q.diagnostics = p.diagnostics := by
  intro hall
  let bang : Token := ⟨.bang, "!", 1, 1⟩
  let semicolon : Token := ⟨.semicolon, ";", 1, 3⟩
  let minus : Token := ⟨.minus, "-", 1, 5⟩
  let one : Token := ⟨.int, "1", 1, 7⟩
  have hlimit : ∀ t ∈ [bang], t.WithinLimit := by simp [bang, Token.WithinLimit]
  have hfront : Reads ([bang] ++ [semicolon])
      [.full .plain ⟨⟨[bang], .missing semicolon⟩, []⟩ none] := ⟨by decide, Or.inl rfl⟩
  have hback : Reads [minus, one]
      [.full .plain ⟨⟨[minus], .leaf (.integer one 1)⟩, []⟩ none] := ⟨by decide, Or.inl rfl⟩
  have hwhole : Reads ([bang] ++ semicolon :: [minus, one])
      [.full .plain ⟨⟨[bang], .missing semicolon⟩,
        [(minus, ⟨[], .leaf (.integer one 1)⟩)]⟩ none] := ⟨by decide, Or.inl rfl⟩
  obtain ⟨p, hp, -⟩ := parse_of_reads hfront
  obtain ⟨r, hr, hclean⟩ := parse_of_reads hback
  obtain ⟨q, hq, -⟩ := parse_of_reads hwhole
  obtain ⟨heq, -⟩ := hall [bang] [minus, one] semicolon (by decide) hlimit rfl (by decide)
    _ r _ p _ q hr hclean hp hq
  cases congrArg List.length heq

end MonkeySyntax.Parser
