import MonkeySyntax.Proofs.Recovery.Clean

/-!
# Statements that join

Where no semicolon ends a statement, the parser takes a minus sign behind it for an infix operator,
and reads what would be the next statement as the end of this one. Statements without a diagnostic
that stand in a row always have the tokens of a program; joining them from the last one on gives it.
-/

namespace MonkeySyntax.Recovery

namespace Run

/-- The first operator of the second run becomes an infix operator. -/
def join (v w : Run) : Run :=
  ⟨v.first, v.rest ++ (w.head, ⟨w.first.operators.tail, w.first.atom⟩) :: w.rest⟩

variable {v w : Run}

theorem operators_eq_cons (h : w.WellFormed) (hminus : w.head.kind = .minus) :
    w.first.operators = w.head :: w.first.operators.tail := by
  obtain ⟨⟨_ | ⟨t, ts⟩, a⟩, rest⟩ := w
  · have hunary := Atom.isUnary_token h.1.2
    have hkind : a.token.kind = .minus := hminus
    rw [hkind] at hunary
    cases hunary
  · rfl

theorem tokens_join (h : w.WellFormed) (hminus : w.head.kind = .minus) :
    (v.join w).tokens = v.tokens ++ w.tokens := by
  have hop := operators_eq_cons h hminus
  have hfirst : w.first.tokens =
      w.head :: Operand.tokens ⟨w.first.operators.tail, w.first.atom⟩ := by
    rw [Operand.tokens, hop]
    rfl
  rw [tokens, join, List.flatMap_append, List.flatMap_cons, tokens, tokens, hfirst]
  simp [Link.tokens]

theorem diagnostics_join : (v.join w).diagnostics = v.diagnostics ++ w.diagnostics := by
  simp [diagnostics, join]

theorem wellFormed_join (hv : v.WellFormed) (hbare : v.first.bare = false) (hw : w.WellFormed)
    (hminus : w.head.kind = .minus) : (v.join w).WellFormed := by
  have hop := operators_eq_cons hw hminus
  have hoperator : w.head.kind.isInfix := by rw [hminus]; rfl
  have htail : ∀ t ∈ w.first.operators.tail, t.kind.isUnary := by
    intro t ht
    exact hw.1.1 t (List.mem_of_mem_tail ht)
  refine ⟨hv.1, fun h => by simp [join, hbare] at h, fun x hx => ?_⟩
  rcases List.mem_append.mp hx with hx | hx
  · exact hv.2.2 x hx
  · rcases List.mem_cons.mp hx with rfl | hx
    · exact ⟨hoperator, htail, hw.1.2⟩
    · exact hw.2.2 x hx

end Run

namespace Statement

/-- The parser reads the third statement in the place of the first two. -/
structure Joins (s b m : Statement) : Prop where
  wellFormed : m.WellFormed
  head : m.head = s.head
  tokens : m.tokens = s.tokens ++ b.tokens
  diagnostics : m.diagnostics = s.diagnostics ++ b.diagnostics
  trees : s.tree.isSome ∧ b.tree.isSome ∧ m.tree.isSome
  ends : ∀ next, b.EndsBefore next → m.EndsBefore next

theorem eq_plain_of_minus {b : Statement} (h : b.WellFormed) (hminus : b.head.kind = .minus) :
    ∃ value semicolon, b = full .plain value semicolon := by
  cases b with
  | nameless word got =>
    have hword : word.kind = .minus := hminus
    simp [h.1] at hword
  | signless word name got =>
    have hword : word.kind = .minus := hminus
    simp [h.1] at hword
  | full lead value semicolon =>
    cases lead with
    | letLead word name sign =>
      have hword : word.kind = .minus := hminus
      simp [h.1.1] at hword
    | returnLead word =>
      have hlead : word.kind = .returnKw := h.1
      have hword : word.kind = .minus := hminus
      simp [hlead] at hword
    | plain => exact ⟨value, semicolon, rfl⟩

theorem exists_joins {lead : Lead} {value : Run} {b : Statement}
    (hs : (full lead value none).WellFormed) (hbare : value.first.bare = false)
    (hb : b.WellFormed) (hminus : b.head.kind = .minus) :
    ∃ m, Joins (full lead value none) b m := by
  obtain ⟨w, semicolon, rfl⟩ := eq_plain_of_minus hb hminus
  have hminus : w.head.kind = .minus := hminus
  have hop := w.operators_eq_cons hb.2.1 hminus
  have hopen : ¬ w.first.bare := by
    intro h
    obtain ⟨t, ht⟩ := Operand.bare_iff.mp h
    rw [ht] at hop
    cases hop
  refine ⟨full lead (value.join w) semicolon, ?_, rfl, ?_, value.diagnostics_join, ?_, ?_⟩
  · exact ⟨hs.1, value.wellFormed_join hs.2.1 hbare hb.2.1 hminus, hs.2.2.1, hb.2.2.2⟩
  · simp [tokens, Lead.tokens, value.tokens_join hb.2.1 hminus]
  · exact ⟨rfl, rfl, rfl⟩
  · intro next hends hnone
    obtain ⟨hsemi, hrun⟩ := hends hnone
    exact ⟨hsemi, Or.inr (hrun.resolve_left hopen)⟩

/-- Without a diagnostic only an infix operator can make a statement go on. -/
theorem endsBefore_or_isInfix {s : Statement} {next : Token} (hclean : s.diagnostics = [])
    (hsemi : next.kind ≠ .semicolon) :
    s.EndsBefore next ∨ next.kind.isInfix ∧ ∃ lead value, s = full lead value none := by
  cases s with
  | nameless | signless => cases hclean
  | full lead value semicolon =>
    cases semicolon with
    | some t => exact Or.inl fun h => nomatch h
    | none =>
      by_cases hoperator : next.kind.isInfix
      · exact Or.inr ⟨hoperator, lead, value, rfl⟩
      · exact Or.inl fun _ => ⟨hsemi, Or.inr fun h => hoperator h.1⟩

end Statement

namespace Program

variable {ss bs : List Statement} {next : Token}

theorem head_of_clean (h : Chained ss .endOfInput) (hclean : diagnostics ss = []) :
    (head ss .endOfInput).kind ≠ .semicolon ∧
      ((head ss .endOfInput).kind.isInfix → (head ss .endOfInput).kind = .minus) := by
  cases ss with
  | nil => exact ⟨by decide, by decide⟩
  | cons s ss => exact (s.head_of_clean h.1 (List.append_eq_nil_iff.mp hclean).1).2

/-- Statements without a diagnostic have the tokens of a program. -/
theorem exists_chained (hwf : ∀ s ∈ ss, s.WellFormed) (hclean : ∀ s ∈ ss, s.diagnostics = []) :
    ∃ rs, Chained rs .endOfInput ∧ tokens rs = tokens ss ∧ diagnostics rs = [] := by
  induction ss with
  | nil => exact ⟨[], trivial, rfl, rfl⟩
  | cons s ss ih =>
    obtain ⟨hs, hss⟩ := List.forall_mem_cons.mp hwf
    obtain ⟨hsclean, hssclean⟩ := List.forall_mem_cons.mp hclean
    obtain ⟨rs, hchained, htokens, hrsclean⟩ := ih hss hssclean
    have heof := (s.head_of_clean hs hsclean).1
    obtain ⟨hsemi, hoperator⟩ := head_of_clean hchained hrsclean
    rcases s.endsBefore_or_isInfix hsclean hsemi with hends | ⟨hnext, lead, value, rfl⟩
    · refine ⟨s :: rs, ⟨hs, heof, hends, hchained⟩, ?_, ?_⟩
      · rw [tokens_cons, tokens_cons, htokens]
      · rw [diagnostics_cons, hsclean, hrsclean, List.append_nil]
    · cases rs with
      | nil => cases hnext
      | cons b bs =>
        obtain ⟨hb, -, hends, hbs⟩ := hchained
        have hbare := value.bare_eq_false hsclean
        obtain ⟨m, hm⟩ := Statement.exists_joins hs hbare hb (hoperator hnext)
        refine ⟨m :: bs, ⟨hm.wellFormed, hm.head ▸ heof, hm.ends _ hends, hbs⟩, ?_, ?_⟩
        · rw [tokens_cons, tokens_cons, hm.tokens, List.append_assoc, ← htokens, tokens_cons]
        · rw [diagnostics_cons, hm.diagnostics, hsclean, List.nil_append, ← diagnostics_cons,
            hrsclean]

end Program

end MonkeySyntax.Recovery
