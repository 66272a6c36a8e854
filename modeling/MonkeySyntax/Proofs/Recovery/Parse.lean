import MonkeySyntax.Parser.Statement
import MonkeySyntax.Proofs.Recovery.Expression
import MonkeySyntax.Proofs.Recovery.Program

/-!
# Parses as programs

The parser of statements reads exactly the statements of `Recovery`, one behind the other up to the
end of input, and whatever tokens there are, it has such statements in front unless it meets an
integer with too many digits.
-/

namespace MonkeySyntax.Parser

open Recovery

variable {σ : Type} [TokenSource σ] {p : Parser σ}

/-! ## Values -/

/-- A value and its semicolon stand in front of the parser, and what follows is not part of it. -/
structure FacesValue (p : Parser σ) (value : Run) (semicolon : Option Token) : Prop where
  wellFormed : value.WellFormed
  kind : ∀ t ∈ semicolon, t.kind = .semicolon
  faces : p.Faces (value.tokens ++ semicolon.toList)
  ends : semicolon = none →
    (p.ahead value.tokens.length).kind ≠ .semicolon ∧
      value.EndsBefore Precedence.lowest.rank (p.ahead value.tokens.length)

theorem FacesValue.run {value : Run} {semicolon : Option Token}
    (h : p.FacesValue value semicolon) : p.FacesRun Precedence.lowest.rank value where
  wellFormed := h.wellFormed
  above x hx := TokenKind.lowest_lt_rank_iff.mpr (h.wellFormed.2.2 x hx).1
  faces := ((faces_append _ _ _).mp h.faces).1
  ends := by
    cases semicolon with
    | none => exact (h.ends rfl).2
    | some t =>
      right
      rw [h.faces.ahead_length, TokenKind.extends_lowest, h.kind t rfl]
      decide

/-- A value is read with the semicolon behind it. -/
theorem value_eq {α : Type} {value : Run} {semicolon : Option Token}
    (h : p.FacesValue value semicolon) (f : Option Node → α) :
    ((p.expression Precedence.lowest.rank).andThen fun v q => (.ok (f v), q.skipSemicolon)) =
      (.ok (f value.tree),
        p.follow (value.moves ++ List.replicate semicolon.toList.length .advance)) := by
  rw [expression_eq_tree h.run, Step.andThen_ok, follow_append, skipSemicolon, peek_follow,
    value.advances_moves]
  cases semicolon with
  | none => rw [if_neg (h.ends rfl).1]; rfl
  | some t => rw [h.faces.ahead_length, if_pos (h.kind t rfl)]; rfl

theorem value_cases (p : Parser σ) :
    (∃ value semicolon, p.FacesValue value semicolon) ∨
      p.Overlong (p.expression Precedence.lowest.rank) := by
  rcases p.expression_cases Precedence.lowest.rank with ⟨w, hw⟩ | hover
  · left
    by_cases hsemi : (p.ahead w.tokens.length).kind = .semicolon
    · refine ⟨w, some (p.ahead w.tokens.length), hw.wellFormed, by simpa using hsemi, ?_, by simp⟩
      exact (faces_append _ _ _).mpr ⟨hw.faces, rfl, trivial⟩
    · refine ⟨w, none, hw.wellFormed, by simp, ?_, fun _ => ⟨hsemi, hw.ends⟩⟩
      simpa using hw.faces
  · exact Or.inr hover

/-! ## Statements -/

/-- The statement stands in front of the parser and ends there. -/
structure FacesStatement (p : Parser σ) (s : Statement) : Prop where
  wellFormed : s.WellFormed
  faces : p.Faces s.tokens
  ends : s.EndsBefore (p.ahead s.tokens.length)

theorem FacesStatement.value {lead : Lead} {value : Run} {semicolon : Option Token}
    (h : p.FacesStatement (.full lead value semicolon)) :
    (p.forward lead.tokens.length).FacesValue value semicolon where
  wellFormed := h.wellFormed.2.1
  kind := h.wellFormed.2.2.2
  faces := ((faces_append _ _ _).mp h.faces).2
  ends hnone := by
    have hends := h.ends hnone
    subst hnone
    rw [ahead_forward]
    simpa [Statement.tokens] using hends

theorem FacesStatement.of_value {lead : Lead} {value : Run} {semicolon : Option Token}
    (hlead : lead.WellFormed) (hfaces : p.Faces lead.tokens)
    (hvalue : (p.forward lead.tokens.length).FacesValue value semicolon)
    (hplain : lead = .plain → p.cur.kind ≠ .letKw ∧ p.cur.kind ≠ .returnKw) :
    p.FacesStatement (.full lead value semicolon) where
  wellFormed := by
    refine ⟨hlead, hvalue.wellFormed, fun h => ?_, hvalue.kind⟩
    have hcur : p.cur = value.head := by
      subst h
      exact hvalue.run.faces.cur_eq value.head?_tokens
    exact hcur ▸ hplain h
  faces := (faces_append _ _ _).mpr ⟨hfaces, hvalue.faces⟩
  ends hnone := by
    have hends := hvalue.ends hnone
    subst hnone
    rw [ahead_forward] at hends
    simpa [Statement.tokens] using hends

theorem statement_of_let (h : p.cur.kind = .letKw) : p.statement = p.letStatement := by
  rw [statement, h]

theorem statement_of_return (h : p.cur.kind = .returnKw) :
    p.statement = p.returnStatement.map some := by
  rw [statement, h]

theorem statement_of_plain (hlet : p.cur.kind ≠ .letKw) (hreturn : p.cur.kind ≠ .returnKw) :
    p.statement = p.expressionStatement.map some := by
  unfold statement
  split <;> first | contradiction | rfl

/-- In front of a statement the parser of statements answers its tree and makes its moves. -/
theorem statement_eq_tree {s : Statement} (h : p.FacesStatement s) :
    p.statement = (.ok s.tree, p.follow s.moves) := by
  cases s with
  | nameless word got =>
    obtain ⟨hcur, -⟩ := h.faces
    have hnext : p.peek.kind = got := h.ends
    rw [statement_of_let (by rw [hcur, h.wellFormed.1]), letStatement, expect, hnext,
      if_neg h.wellFormed.2]
    rfl
  | signless word name got =>
    obtain ⟨hcur, hname, -⟩ := h.faces
    have hpeek : p.peek = name := hname
    have hnext : p.advance.peek.kind = got := h.ends
    rw [statement_of_let (by rw [hcur, h.wellFormed.1]), letStatement, expect, hpeek,
      if_pos h.wellFormed.2.1]
    simp only [expect, hnext, if_neg h.wellFormed.2.2]
    rfl
  | full lead value semicolon =>
    have hvalue := h.value
    rw [Statement.moves, follow_append, follow_replicate]
    cases lead with
    | letLead word name sign =>
      obtain ⟨hcur, hname, hsign, -⟩ := h.faces
      have hpeek : p.peek = name := hname
      have hpeek' : p.advance.peek = sign := hsign
      obtain ⟨hword, hident, hassign⟩ := h.wellFormed.1
      rw [statement_of_let (by rw [hcur, hword]), letStatement, expect, hpeek, if_pos hident]
      simp only [expect, hpeek', if_pos hassign]
      refine (value_eq hvalue _).trans ?_
      rw [identifier, cur_advance, hpeek, hcur]
      rfl
    | returnLead word =>
      obtain ⟨hcur, -⟩ := h.faces
      have hword : word.kind = .returnKw := h.wellFormed.1
      rw [statement_of_return (by rw [hcur, hword])]
      refine (congrArg (Step.map some) (value_eq hvalue _)).trans ?_
      rw [hcur]
      rfl
    | plain =>
      obtain ⟨hlet, hreturn⟩ := h.wellFormed.2.2.1 rfl
      have hcur : p.cur = value.head := hvalue.run.faces.cur_eq value.head?_tokens
      rw [statement_of_plain (hcur ▸ hlet) (hcur ▸ hreturn)]
      refine (congrArg (Step.map some) (value_eq hvalue _)).trans ?_
      rw [hcur]
      rfl

theorem passes_lead {l : Lead} (hwf : l.WellFormed) (hfaces : p.Faces l.tokens) :
    p.Passes (List.replicate l.tokens.length .advance) l.tokens :=
  .replicate hfaces (l.reports hwf)

theorem FacesStatement.passes {s : Statement} (h : p.FacesStatement s) :
    p.Passes (s.moves ++ [.advance]) s.tokens :=
  ⟨h.faces, by simp [← s.advances_moves], by simpa using s.reports h.wellFormed⟩

theorem statement_cases (p : Parser σ) :
    (∃ s, p.FacesStatement s) ∨ p.Overlong p.statement := by
  by_cases hlet : p.cur.kind = .letKw
  · rw [statement_of_let hlet, letStatement]
    by_cases hname : p.peek.kind = .ident
    · by_cases hsign : p.advance.peek.kind = .assign
      · rcases p.advance.advance.advance.value_cases with ⟨value, semicolon, hvalue⟩ | hover
        · left
          refine ⟨.full (.letLead p.cur p.peek p.advance.peek) value semicolon, ?_⟩
          exact .of_value ⟨hlet, hname, hsign⟩ ⟨rfl, rfl, rfl, trivial⟩ hvalue (by simp)
        · right
          have hlead : Lead.WellFormed (.letLead p.cur p.peek p.advance.peek) :=
            ⟨hlet, hname, hsign⟩
          simp only [expect, if_pos hname, if_pos hsign]
          exact (passes_lead hlead ⟨rfl, rfl, rfl, trivial⟩).overlong (hover.andThen _)
      · left
        exact ⟨.signless p.cur p.peek p.advance.peek.kind, ⟨hlet, hname, hsign⟩,
          ⟨rfl, rfl, trivial⟩, rfl⟩
    · left
      exact ⟨.nameless p.cur p.peek.kind, ⟨hlet, hname⟩, ⟨rfl, trivial⟩, rfl⟩
  · by_cases hreturn : p.cur.kind = .returnKw
    · rw [statement_of_return hreturn]
      rcases p.advance.value_cases with ⟨value, semicolon, hvalue⟩ | hover
      · left
        refine ⟨.full (.returnLead p.cur) value semicolon, ?_⟩
        exact .of_value hreturn ⟨rfl, trivial⟩ hvalue (by simp)
      · have hlead : Lead.WellFormed (.returnLead p.cur) := hreturn
        exact Or.inr ((passes_lead hlead ⟨rfl, trivial⟩).overlong ((hover.andThen _).map _))
    · rw [statement_of_plain hlet hreturn]
      rcases p.value_cases with ⟨value, semicolon, hvalue⟩ | hover
      · left
        refine ⟨.full .plain value semicolon, ?_⟩
        exact .of_value trivial trivial hvalue fun _ => ⟨hlet, hreturn⟩
      · exact Or.inr ((hover.andThen _).map _)

/-! ## Programs -/

/-- The statements stand in front of the parser, and behind them the end of input. -/
structure FacesProgram (p : Parser σ) (ss : List Statement) : Prop where
  chained : Program.Chained ss (p.ahead (Program.tokens ss).length)
  faces : p.Faces (Program.tokens ss)
  ends : (p.ahead (Program.tokens ss).length).kind = .eof

theorem head_eq_of_faces {ss : List Statement} (h : p.Faces (Program.tokens ss)) :
    p.cur = Program.head ss (p.ahead (Program.tokens ss).length) := by
  cases ss with
  | nil => rfl
  | cons s ss => exact ((faces_append _ _ _).mp h).1.cur_eq s.head?_tokens

theorem FacesProgram.passes {ss : List Statement} (h : p.FacesProgram ss) :
    p.Passes (Program.moves ss) (Program.tokens ss) where
  faces := h.faces
  advances := Program.advances_moves ss
  reports := by
    rw [Program.diagnostics_moves]
    exact Program.reports (Program.wellFormed_of_chained h.chained)

theorem facesProgram_nil : p.FacesProgram [] ↔ p.cur.kind = .eof :=
  ⟨fun h => h.ends, fun h => ⟨trivial, trivial, h⟩⟩

/-- Statements in a row start with the first of them; the others stand where the parser moves on. -/
theorem facesStatement_of_chained {s : Statement} {ss : List Statement}
    (hfaces : p.Faces (Program.tokens (s :: ss)))
    (hchained : Program.Chained (s :: ss) (p.ahead (Program.tokens (s :: ss)).length)) :
    p.FacesStatement s ∧ s.head.kind ≠ .eof ∧
      (p.follow s.moves).advance.Faces (Program.tokens ss) ∧
      Program.Chained ss ((p.follow s.moves).advance.ahead (Program.tokens ss).length) := by
  obtain ⟨hwf, hhead, hends, hchained⟩ := hchained
  rw [Program.tokens_cons, faces_append] at hfaces
  rw [Program.tokens_cons, List.length_append, ← ahead_forward] at hends hchained
  have hahead : ∀ n, (p.follow s.moves).advance.ahead n = (p.forward s.tokens.length).ahead n := by
    intro n
    rw [ahead_advance, ahead_follow, ahead_forward, ← s.advances_moves]
    congr 1
    omega
  rw [← head_eq_of_faces hfaces.2, cur_forward] at hends
  refine ⟨⟨hwf, hfaces.1, hends⟩, hhead, ?_, ?_⟩
  · rw [faces_advance_follow, s.advances_moves]
    exact hfaces.2
  · rw [hahead]
    exact hchained

theorem facesProgram_cons {s : Statement} {ss : List Statement} :
    p.FacesProgram (s :: ss) ↔
      p.FacesStatement s ∧ s.head.kind ≠ .eof ∧ (p.follow s.moves).advance.FacesProgram ss := by
  have hahead : p.ahead (Program.tokens (s :: ss)).length =
      (p.follow s.moves).advance.ahead (Program.tokens ss).length := by
    rw [Program.tokens_cons, List.length_append, ahead_advance, ahead_follow, ← s.advances_moves]
    congr 1
    omega
  constructor
  · rintro ⟨hchained, hfaces, heof⟩
    obtain ⟨hs, hhead, hrest, hbehind⟩ := facesStatement_of_chained hfaces hchained
    exact ⟨hs, hhead, hbehind, hrest, hahead ▸ heof⟩
  · rintro ⟨⟨hwf, hs, hends⟩, hhead, hprogram⟩
    have hcur : p.ahead s.tokens.length =
        Program.head ss ((p.follow s.moves).advance.ahead (Program.tokens ss).length) := by
      rw [← head_eq_of_faces hprogram.faces, ← ahead_zero, ahead_advance, ahead_follow,
        ← s.advances_moves]
    refine ⟨⟨hwf, hhead, ?_, ?_⟩, ?_, ?_⟩
    · rw [hahead, ← hcur]
      exact hends
    · rw [hahead]
      exact hprogram.chained
    · rw [Program.tokens_cons, faces_append, ← s.advances_moves, ← faces_advance_follow]
      exact ⟨hs, hprogram.faces⟩
    · rw [hahead]
      exact hprogram.ends

/-- Statements in front of a parser come first, and behind them it goes on as from anywhere else. -/
theorem statements_eq_map {ss : List Statement} (hfaces : p.Faces (Program.tokens ss))
    (hchained : Program.Chained ss (p.ahead (Program.tokens ss).length)) :
    p.statements =
      (p.follow (Program.moves ss)).statements.map fun rest => Program.trees ss ++ rest := by
  induction ss generalizing p with
  | nil => exact (Step.map_id _).symm
  | cons s ss ih =>
    obtain ⟨hs, hhead, hrest, hbehind⟩ := facesStatement_of_chained hfaces hchained
    have hcur := hs.faces.cur_eq s.head?_tokens
    rw [statements_eq, if_neg (hcur ▸ hhead), statement_eq_tree hs, Step.andThen_ok,
      ih hrest hbehind, Step.map_map, Program.trees_cons, Program.moves_cons, follow_append,
      follow_advance]
    simp only [List.append_assoc]

theorem statements_eq_trees {ss : List Statement} (h : p.FacesProgram ss) :
    p.statements = (.ok (Program.trees ss), p.follow (Program.moves ss)) := by
  have heof : (p.follow (Program.moves ss)).cur.kind = .eof := by
    rw [← ahead_zero, ahead_follow, Program.advances_moves]
    exact h.ends
  rw [statements_eq_map h.faces h.chained, statements_eq, if_pos heof, Step.map_ok,
    List.append_nil]

/-- Unless an integer is too long, statements stand in front of the parser up to the end. -/
theorem statements_cases (p : Parser σ) :
    (∃ ss, p.FacesProgram ss) ∨ p.Overlong p.statements := by
  induction h : p.weight using Nat.strongRecOn generalizing p with
  | ind n ih =>
    subst h
    by_cases heof : p.cur.kind = .eof
    · exact Or.inl ⟨[], facesProgram_nil.mpr heof⟩
    · rw [statements_eq, if_neg heof]
      rcases p.statement_cases with ⟨s, hs⟩ | hover
      · have hstatement := statement_eq_tree hs
        have hweight : (p.follow s.moves).advance.weight < p.weight := by
          simpa [hstatement] using statement_advance_weight_lt heof
        rw [hstatement, Step.andThen_ok]
        rcases ih _ hweight _ rfl with ⟨ss, hss⟩ | hover
        · left
          exact ⟨s :: ss, facesProgram_cons.mpr ⟨hs, hs.faces.cur_eq s.head?_tokens ▸ heof, hss⟩⟩
        · exact Or.inr (hs.passes.overlong_advance (hover.map _))
      · exact Or.inr (hover.andThen _)

/-- Statements in front of a fresh parser fix what a parse answers, what it records and where it
ends. -/
theorem parse_of_facesProgram {s : σ} {ss : List Statement} (h : (ofSource s).FacesProgram ss) :
    ∃ e, parse s = (.ok (.program (Program.trees ss)),
      ((ofSource s).follow (Program.moves ss)).note (.finished (Program.trees ss).length e)) := by
  rw [parse, program, statements_eq_trees h, Step.andThen_ok]
  exact ⟨_, rfl⟩

@[simp] theorem diagnostics_ofSource (s : σ) : (ofSource s).diagnostics = [] := by
  simp only [ofSource, diagnostics_advance]
  rfl

@[simp] theorem pulled_ofSource (s : σ) : (ofSource s).pulled = 2 := rfl

/-- A parse leaves the tokens of its statements behind, and stands on the end of input. -/
theorem parse_passes {s : σ} {ss : List Statement} (h : (ofSource s).FacesProgram ss) :
    ∃ p, parse s = (.ok (.program (Program.trees ss)), p) ∧ p.cur.kind = .eof ∧
      p.pulled = (Program.tokens ss).length + 2 ∧ p.diagnostics = Program.diagnostics ss := by
  obtain ⟨e, hparse⟩ := parse_of_facesProgram h
  refine ⟨_, hparse, ?_, ?_, ?_⟩
  · rw [cur_note, ← ahead_zero, ahead_follow, Program.advances_moves]
    exact h.ends
  · rw [pulled_note, pulled_follow, pulled_ofSource, Program.advances_moves, Nat.add_comm]
  · rw [diagnostics_note, diagnostics_follow, diagnostics_ofSource, Program.diagnostics_moves]
    exact List.append_nil _

/-- A parse that answers does so because of statements in front of it. -/
theorem facesProgram_of_parse {s : σ} {n : Node} {p : Parser σ} (h : parse s = (.ok n, p)) :
    ∃ ss, (ofSource s).FacesProgram ss ∧ n = .program (Program.trees ss) ∧
      p.diagnostics = Program.diagnostics ss := by
  rcases (ofSource s).statements_cases with ⟨ss, hss⟩ | hover
  · obtain ⟨q, hparse, -, -, hdiagnostics⟩ := parse_passes hss
    obtain ⟨hn, rfl⟩ := Prod.mk.inj (h.symm.trans hparse)
    exact ⟨ss, hss, Except.ok.inj hn, hdiagnostics⟩
  · have hparse : (ofSource s).Overlong (parse s) := hover.andThen _
    obtain ⟨_, _, _, hfault, -⟩ := hparse
    rw [h] at hfault
    cases hfault

end MonkeySyntax.Parser
