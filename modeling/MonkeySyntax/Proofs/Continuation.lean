import MonkeySyntax.Proofs.Recovery.Reading

/-!
# Appending tokens

A program is read by a loop with one iteration for each statement. An iteration looks at the tokens
of its statement and at the one behind them, which starts the next iteration or is the end of input.
So only the last iteration has seen where the tokens end, and whatever is appended, the ones before
it answer and record the same again.
-/

namespace MonkeySyntax.Parser

open Recovery

section Iterations

variable {σ : Type} [TokenSource σ] {p : Parser σ} {ss rs before : List Statement}

/-! ## Iterations -/

/-- The parser at the start of each iteration of the loop that reads the statements. -/
def iterations (p : Parser σ) : List (Parser σ) :=
  if _h : p.cur.kind = .eof then []
  else
    match _hs : p.statement with
    | (.error _, _) => [p]
    | (.ok _, q) => p :: q.advance.iterations
termination_by p.weight
decreasing_by simpa only [_hs] using statement_advance_weight_lt _h

theorem iterations_of_eof (h : p.cur.kind = .eof) : p.iterations = [] := by
  rw [iterations, dif_pos h]

theorem iterations_of_ok {s : Option Node} {q : Parser σ} (h : p.cur.kind ≠ .eof)
    (hs : p.statement = (.ok s, q)) : p.iterations = p :: q.advance.iterations := by
  rw [iterations, dif_neg h]
  split
  · rename_i hfault
    rw [hs] at hfault
    cases hfault
  · rename_i hok
    rw [hs] at hok
    cases hok
    rfl

/-- What an iteration adds to the statements: nothing if its statement is given up. -/
def added (p : Parser σ) : List Node := (p.statement.1.toOption.bind id).toList

/-- The statements are what the iterations add, in their order. -/
theorem statements_of_iterations {ns : List Node} {q : Parser σ}
    (h : p.statements = (.ok ns, q)) : ns = p.iterations.flatMap added := by
  -- on the weight, which drops from each iteration to the next
  induction hw : p.weight using Nat.strongRecOn generalizing p ns with
  | ind n ih =>
    subst hw
    rw [statements_eq] at h
    by_cases heof : p.cur.kind = .eof
    · rw [if_pos heof] at h
      cases h
      rw [iterations_of_eof heof, List.flatMap_nil]
    · rw [if_neg heof] at h
      have hlt := statement_advance_weight_lt heof
      rcases hs : p.statement with ⟨_ | s, r⟩
      · rw [hs] at h
        cases h
      · rw [hs] at h hlt
        rcases hrest : r.advance.statements with ⟨_ | rest, t⟩
        · rw [Step.andThen_ok, hrest] at h
          cases h
        · rw [Step.andThen_ok, hrest] at h
          cases h
          rw [iterations_of_ok heof hs, List.flatMap_cons, ← ih _ hlt hrest rfl, added, hs]
          rfl

theorem iterations_cons {s : Statement} (h : p.FacesProgram (s :: ss)) :
    p.iterations = p :: (p.follow s.moves).advance.iterations := by
  obtain ⟨hs, hhead, -⟩ := facesProgram_cons.mp h
  have hcur := hs.faces.cur_eq s.head?_tokens
  exact iterations_of_ok (hcur ▸ hhead) (statement_eq_tree hs)

/-- The last iteration starts where the statements in front of the last one were read. -/
theorem getLast?_iterations {last : Statement} (h : p.FacesProgram (before ++ [last])) :
    p.iterations.getLast? = some (p.follow (Program.moves before)) := by
  induction before generalizing p with
  | nil =>
    obtain ⟨-, -, hrest⟩ := facesProgram_cons.mp h
    rw [iterations_cons h, iterations_of_eof (facesProgram_nil.mp hrest)]
    rfl
  | cons s before ih =>
    obtain ⟨-, -, hrest⟩ := facesProgram_cons.mp h
    rw [iterations_cons h, List.getLast?_cons, ih hrest, Program.moves_cons, follow_append]
    rfl

/-! ## Statements in front of others -/

/-- Statements in front of a parser come first in what it reads. -/
theorem exists_facesProgram_append (hfaces : p.Faces (Program.tokens ss))
    (hchained : Program.Chained ss (p.ahead (Program.tokens ss).length))
    (h : p.FacesProgram rs) : ∃ rest, p.FacesProgram (ss ++ rest) := by
  induction ss generalizing p rs with
  | nil => exact ⟨rs, h⟩
  | cons s ss ih =>
    obtain ⟨hs, hhead, hrest, hbehind⟩ := facesStatement_of_chained hfaces hchained
    have hcur := hs.faces.cur_eq s.head?_tokens
    cases rs with
    | nil => exact absurd (facesProgram_nil.mp h) (hcur ▸ hhead)
    | cons r rs =>
      obtain ⟨hr, -, hrs⟩ := facesProgram_cons.mp h
      -- The two statements may differ as values; the parser makes the same moves in front of both.
      have hmoves : p.follow r.moves = p.follow s.moves :=
        congrArg Prod.snd ((statement_eq_tree hr).symm.trans (statement_eq_tree hs))
      rw [hmoves] at hrs
      obtain ⟨rest, hrest⟩ := ih hrest hbehind hrs
      exact ⟨rest, facesProgram_cons.mpr ⟨hs, hhead, hrest⟩⟩

/-- What the parser has to see for statements to be read again: their tokens and the next one. -/
theorem FacesProgram.front {last : Statement} (h : p.FacesProgram (before ++ [last])) :
    p.Faces (Program.tokens before ++ [last.head]) ∧ Program.Chained before last.head ∧
      last.head.kind ≠ .eof := by
  obtain ⟨hchained, hfaces, -⟩ := h
  obtain ⟨hbefore, -, hhead, -⟩ := Program.chained_append.mp hchained
  rw [Program.tokens_append, faces_append, Program.tokens_cons, faces_append] at hfaces
  refine ⟨(faces_append _ _ _).mpr ⟨hfaces.1, ?_, trivial⟩, hbefore, hhead⟩
  exact hfaces.2.1.cur_eq last.head?_tokens

end Iterations

/-! ## Appending -/

variable {ts us : List Token} {before : List Statement}

/-- Up to a token that is not the end of input, appended tokens stay out of sight. -/
theorem faces_ofList_append {fs : List Token} {t : Token} (heof : t.kind ≠ .eof)
    (h : (ofSource (TokenQueue.ofList ts)).Faces (fs ++ [t])) :
    (ofSource (TokenQueue.ofList (ts ++ us))).Faces (fs ++ [t]) := by
  have hlast := h.ahead_length
  rw [ahead_ofSource_ofList] at hlast
  have hlt : fs.length < ts.length := by
    by_contra hge
    rw [List.getD_eq_default _ _ (by omega)] at hlast
    exact heof (hlast ▸ rfl)
  rw [faces_ofSource_ofList] at h ⊢
  intro i hi
  have hi' : i < ts.length := by
    rw [List.length_append, List.length_singleton] at hi
    omega
  rw [← h i hi, List.getD_append _ _ _ _ hi']

/-- Appended tokens leave alone what was read in front of the last iteration. -/
theorem exists_facesProgram_ofList_append {last : Statement}
    (hlimit : ∀ t ∈ ts ++ us, t.WithinLimit)
    (h : (ofSource (TokenQueue.ofList ts)).FacesProgram (before ++ [last])) :
    ∃ rest, (ofSource (TokenQueue.ofList (ts ++ us))).FacesProgram (before ++ rest) := by
  obtain ⟨hfront, hchained, heof⟩ := h.front
  have hfaces : (ofSource (TokenQueue.ofList (ts ++ us))).Faces
      (Program.tokens before ++ [last.head]) := faces_ofList_append heof hfront
  obtain ⟨rs, hrs⟩ := exists_facesProgram hlimit
  refine exists_facesProgram_append ((faces_append _ _ _).mp hfaces).1 ?_ hrs
  rw [hfaces.ahead_length]
  exact hchained

/-- Appending tokens never rewrites what was read. Both parses answer a program. The statements of
the first are those of its iterations; except possibly the last one they come first in the second,
and so do the diagnostics that were recorded before the last iteration started. -/
theorem parse_append_keeps (hts : ∀ t ∈ ts, t.WithinLimit) (hus : ∀ t ∈ us, t.WithinLimit) :
    ∃ ns ms p q, parse (TokenQueue.ofList ts) = (.ok (.program ns), p) ∧
      parse (TokenQueue.ofList (ts ++ us)) = (.ok (.program ms), q) ∧
      let rounds := (ofSource (TokenQueue.ofList ts)).iterations
      ns = rounds.flatMap added ∧ ns.dropLast <+: ms ∧
        ∀ r ∈ rounds.getLast?, r.diagnostics <+: q.diagnostics := by
  have hlimit : ∀ t ∈ ts ++ us, t.WithinLimit := List.forall_mem_append.mpr ⟨hts, hus⟩
  obtain ⟨ss, hss⟩ := exists_facesProgram hts
  obtain ⟨p, hp, -⟩ := parse_passes hss
  have hrounds := statements_of_iterations (statements_eq_trees hss)
  rcases List.eq_nil_or_concat' ss with rfl | ⟨before, last, rfl⟩
  · obtain ⟨rs, hrs⟩ := exists_facesProgram hlimit
    obtain ⟨q, hq, -⟩ := parse_passes hrs
    refine ⟨_, _, p, q, hp, hq, hrounds, List.nil_prefix, fun r hr => ?_⟩
    rw [iterations_of_eof (facesProgram_nil.mp hss)] at hr
    cases hr
  · obtain ⟨rest, hrest⟩ := exists_facesProgram_ofList_append hlimit hss
    obtain ⟨q, hq, -, -, hdiagnostics⟩ := parse_passes hrest
    refine ⟨_, _, p, q, hp, hq, hrounds, ?_, fun r hr => ?_⟩
    · have hkept : Program.trees before <+: Program.trees (before ++ rest) := by
        rw [Program.trees_append]
        exact List.prefix_append _ _
      exact Program.dropLast_trees_prefix.trans hkept
    · rw [getLast?_iterations hss] at hr
      obtain rfl := Option.some.inj hr
      rw [diagnostics_follow, diagnostics_ofSource, List.nil_append, Program.diagnostics_moves,
        hdiagnostics, Program.diagnostics_append]
      exact List.prefix_append _ _

/-- With `b` behind `) a +` the sum is complete: the diagnostic for the missing operand goes, and
the one for the parenthesis stays. -/
theorem parse_append_keeps_openSum :
    let ts : List Token := [⟨.rparen, ")", 1, 1⟩, ⟨.ident, "a", 1, 3⟩, ⟨.plus, "+", 1, 5⟩]
    let us : List Token := [⟨.ident, "b", 1, 7⟩]
    ∃ ns ms p q r, parse (TokenQueue.ofList ts) = (.ok (.program ns), p) ∧
      parse (TokenQueue.ofList (ts ++ us)) = (.ok (.program ms), q) ∧ ns.length = 2 ∧
      ns.dropLast <+: ms ∧ p.diagnostics = [.noOperand .rparen, .noOperand .eof] ∧
      (ofSource (TokenQueue.ofList ts)).iterations.getLast? = some r ∧
      r.diagnostics = [.noOperand .rparen] ∧ r.diagnostics <+: q.diagnostics := by
  intro ts us
  have hreads : Reads ts ([.full .plain ⟨⟨[], .missing ⟨.rparen, ")", 1, 1⟩⟩, []⟩ none] ++
      [.full .plain ⟨⟨[], .leaf (.identifier ⟨.ident, "a", 1, 3⟩)⟩,
        [(⟨.plus, "+", 1, 5⟩, ⟨[], .missing .endOfInput⟩)]⟩ none]) :=
    ⟨by decide, Or.inr rfl⟩
  have hts : ∀ t ∈ ts, t.WithinLimit := Token.forall_withinLimit (by decide)
  have hus : ∀ t ∈ us, t.WithinLimit := Token.forall_withinLimit (by decide)
  have hlast := getLast?_iterations (facesProgram_of_reads hreads)
  obtain ⟨ns, ms, p, q, hp, hq, -, hstatements, hdiagnostics⟩ := parse_append_keeps hts hus
  obtain ⟨hns, hpdiag⟩ := eq_of_reads hreads hp
  obtain rfl := Node.program.inj hns
  refine ⟨_, ms, p, q, _, hp, hq, rfl, hstatements, hpdiag, hlast, ?_, hdiagnostics _ hlast⟩
  rw [diagnostics_follow, diagnostics_ofSource]
  rfl

end MonkeySyntax.Parser
