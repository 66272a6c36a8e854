import Mathlib.Data.List.NodupEquivFin
import MonkeySyntax.Proofs.Recovery.Reading

/-!
# Conservation of tokens

The tree of any parse keeps tokens of the input at rising positions, and each of the others is
accounted for: the assignment sign of a let, a semicolon behind a statement, or a token that some
diagnostic stands for.
-/

namespace MonkeySyntax

def Node.isLet : Node → Bool
  | letStmt .. => true
  | _ => false

namespace Diagnostic

/-- A token stands in the place of an operand, and is not the end of input. -/
def isStray : Diagnostic → Bool
  | noOperand kind => kind != .eof
  | _ => false

def isBadInteger : Diagnostic → Bool
  | badInteger _ => true
  | _ => false

/-- A let statement is given up for want of a token of the kind. -/
def misses (wanted : TokenKind) : Diagnostic → Bool
  | expectedNext w _ => w == wanted
  | _ => false

theorem passed_eq (d : Diagnostic) :
    d.passed = (if d == .noOperand .eof then 1 else 0) + (if d.isStray then 1 else 0) +
      (if d.isBadInteger then 1 else 0) + (if d.misses .ident then 1 else 0) +
      2 * (if d.misses .assign then 1 else 0) := by
  cases d with
  | expectedNext wanted got => cases wanted <;> rfl
  | noOperand kind => cases kind <;> rfl
  | badInteger | remark => rfl

/-- The tokens passed over, sorted by what is recorded for them. -/
theorem passedAll_eq (ds : List Diagnostic) :
    passedAll ds = ds.count (.noOperand .eof) + ds.countP isStray +
      ds.countP isBadInteger + ds.countP (misses .ident) + 2 * ds.countP (misses .assign) := by
  induction ds with
  | nil => rfl
  | cons d ds ih =>
    rw [passedAll_cons, ih, d.passed_eq]
    simp only [List.count_cons, List.countP_cons]
    omega

end Diagnostic

namespace Recovery.Program

theorem countP_isLet_trees (ss : List Statement) :
    (trees ss).countP Node.isLet = ss.countP Statement.isLet := by
  induction ss with
  | nil => rfl
  | cons s ss ih =>
    rw [trees_cons, List.countP_append, ih, List.countP_cons, Nat.add_comm]
    congr 1
    cases s with
    | nameless | signless => rfl
    | full lead value semicolon => cases lead <;> rfl

/-- What the tree keeps lies in the input, as the end of input is never kept. -/
theorem kept_sublist_of_reads {ts : List Token} {ss : List Statement} (h : Reads ts ss) :
    (kept ss).Sublist ts := by
  have hkept := kept_sublist ss
  rcases h.tokens with heq | heq
  · exact heq ▸ hkept
  · rw [heq] at hkept
    obtain ⟨us, vs, hsplit, hus, hvs⟩ := List.sublist_append_iff.mp hkept
    have hnone : vs = [] := by
      rw [List.eq_nil_iff_forall_not_mem]
      intro t ht
      obtain rfl := List.mem_singleton.mp (hvs.subset ht)
      have hmem : .endOfInput ∈ kept ss := hsplit ▸ List.mem_append_right _ ht
      exact ne_of_mem_kept h.wellFormed TokenKind.foreign_eof _ hmem rfl
    rw [hsplit, hnone, List.append_nil]
    exact hus

/-- The balance of a reading, against the input that it is a reading of. -/
theorem length_of_reads {ts : List Token} {ss : List Statement} (h : Reads ts ss)
    (hts : ∀ t ∈ ts, t.kind ≠ .eof) :
    ts.length + (diagnostics ss).count (.noOperand .semicolon) =
      (kept ss).length + (trees ss).countP Node.isLet + ts.countP (·.kind = .semicolon) +
        (diagnostics ss).countP Diagnostic.isStray +
        (diagnostics ss).countP Diagnostic.isBadInteger +
        (diagnostics ss).countP (Diagnostic.misses .ident) +
        2 * (diagnostics ss).countP (Diagnostic.misses .assign) := by
  have hlength := h.length_tokens hts
  have hbalance := length_tokens ss
  have hsemi := countP_semicolon h.wellFormed
  have hinput : (tokens ss).countP (·.kind = .semicolon) = ts.countP (·.kind = .semicolon) := by
    rcases h.tokens with heq | heq
    · rw [heq]
    · rw [heq, List.countP_append]
      rfl
  rw [Diagnostic.passedAll_eq] at hbalance
  rw [countP_isLet_trees]
  omega

end Recovery.Program

namespace Parser

open Recovery

/-- The kept tokens stand at rising positions of the input, and the others are accounted for. -/
theorem tokens_of_parse {ts : List Token} (hts : ∀ t ∈ ts, t.kind ≠ .eof) {n : Node}
    {p : Parser TokenQueue} (hparse : parse (TokenQueue.ofList ts) = (.ok n, p)) :
    (∃ position : Fin n.tokens.length ↪o Fin ts.length,
        ∀ i, n.tokens.get i = ts.get (position i)) ∧
      (ts.length : ℤ) - n.tokens.length =
        n.statements.countP Node.isLet +
        ((ts.countP (·.kind = .semicolon) : ℤ) -
          p.diagnostics.count (.noOperand .semicolon)) +
        p.diagnostics.countP Diagnostic.isStray +
        p.diagnostics.countP Diagnostic.isBadInteger +
        p.diagnostics.countP (Diagnostic.misses .ident) +
        2 * p.diagnostics.countP (Diagnostic.misses .assign) := by
  obtain ⟨ss, hss⟩ := reads_of_parse hts hparse
  obtain ⟨rfl, hdiagnostics⟩ := eq_of_reads hss hparse
  have htokens : (Node.program (Program.trees ss)).tokens = Program.kept ss := by
    rw [Node.tokens, Program.tokensAll_trees]
  constructor
  · rw [← List.sublist_iff_exists_fin_orderEmbedding_get_eq, htokens]
    exact Program.kept_sublist_of_reads hss
  · have hbalance := Program.length_of_reads hss hts
    rw [htokens, hdiagnostics, Node.statements_program]
    omega

/-- The statements that are read out of `let x 5; -;`. -/
def brokenLet : List Statement :=
  [.signless ⟨.letKw, "let", 1, 1⟩ ⟨.ident, "x", 1, 5⟩ .int,
    .full .plain ⟨⟨[], .leaf (.integer ⟨.int, "5", 1, 7⟩ 5)⟩, []⟩ (some ⟨.semicolon, ";", 1, 8⟩),
    .full .plain ⟨⟨[⟨.minus, "-", 1, 10⟩], .missing ⟨.semicolon, ";", 1, 11⟩⟩, []⟩ none]

theorem brokenLet_reads : Reads (Program.tokens brokenLet) brokenLet := ⟨by decide, Or.inl rfl⟩

/-- Of its six tokens two are kept: a let is given up, and the second semicolon is no operand. -/
theorem tokens_of_parse_brokenLet :
    ∃ n p, parse (TokenQueue.ofList (Program.tokens brokenLet)) = (.ok n, p) ∧
      (∀ t ∈ Program.tokens brokenLet, t.kind ≠ .eof) ∧
      p.diagnostics = [.expectedNext .assign .int, .noOperand .semicolon] ∧
      n.tokens.length = 2 := by
  have hts : ∀ t ∈ Program.tokens brokenLet, t.kind ≠ .eof := by decide
  obtain ⟨p, hparse, hdiagnostics⟩ := parse_of_reads brokenLet_reads
  have hbalance := (tokens_of_parse hts hparse).2
  refine ⟨_, p, hparse, hts, hdiagnostics, ?_⟩
  have hlets : (Node.program (Program.trees brokenLet)).statements.countP Node.isLet = 0 := by
    decide
  have hlength : (Program.tokens brokenLet).length = 6 := by decide
  have hsemi : (Program.tokens brokenLet).countP (·.kind = .semicolon) = 2 := by decide
  have hfound : Program.diagnostics brokenLet =
      [.expectedNext .assign .int, .noOperand .semicolon] := by decide
  rw [hdiagnostics, hlets, hlength, hsemi, hfound] at hbalance
  simp [List.countP_cons, Diagnostic.isStray, Diagnostic.isBadInteger,
    Diagnostic.misses] at hbalance
  omega

end Parser

end MonkeySyntax
