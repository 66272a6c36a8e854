import Mathlib.Data.List.Infix
import MonkeySyntax.Proofs.Recovery.Ending

/-!
# How much a parse reads

A parse pulls two tokens before it starts and one for every token that it leaves behind. It stops on
an end of input, so that of prepared tokens without one among them it pulls all of them and two
ends of input behind them, or three where it looked for an operand there. Which of the two it was
shows in the last diagnostic. Once it has stopped, nothing more is read.
-/

namespace MonkeySyntax.Parser

open Recovery

/-- At the end of input there is no statement to read. -/
theorem program_of_eof {σ : Type} [TokenSource σ] {p : Parser σ} (h : p.cur.kind = .eof) :
    p.program = (.ok (.program []), p.note (.finished 0 0)) := by
  rw [program, statements_eq, if_pos h, Step.andThen_ok, List.length_nil, Nat.sub_self]

variable {ts : List Token} {ss : List Statement}

/-- Whether one token was read behind the last shows in the last diagnostic. -/
theorem length_tokens_of_reads (h : Reads ts ss) (hts : ∀ t ∈ ts, t.kind ≠ .eof) :
    (Program.tokens ss).length =
      ts.length + if (Program.diagnostics ss).getLast? = some (.noOperand .eof) then 1 else 0 := by
  have hcount := h.count_eof_le_one hts
  rw [h.length_tokens hts]
  split
  · have hpos := List.count_pos_iff.mpr (List.mem_of_getLast? ‹_›)
    omega
  · have hnone : .noOperand .eof ∉ Program.diagnostics ss := by
      intro heof
      exact absurd (h.getLast?_diagnostics hts heof) ‹_›
    rw [List.count_eq_zero.mpr hnone]

theorem notMem_dropLast_of_reads (h : Reads ts ss) (hts : ∀ t ∈ ts, t.kind ≠ .eof) :
    .noOperand .eof ∉ (Program.diagnostics ss).dropLast := by
  intro hmem
  have hlast := h.getLast?_diagnostics hts (List.mem_of_mem_dropLast hmem)
  have hcount := h.count_eof_le_one hts
  have hpos := List.count_pos_iff.mpr hmem
  rw [← List.dropLast_append_getLast? _ hlast, List.count_append, List.count_singleton_self]
    at hcount
  omega

/-- A parse stops on an end of input, having pulled at most three tokens more than there are. If no
end of input is among them, it pulls three more exactly where its last diagnostic is that the end of
input starts no operand, and two otherwise. Parsing on finds nothing and pulls nothing. -/
theorem pulled_of_parse (hlimit : ∀ t ∈ ts, t.WithinLimit) :
    ∃ ns p, parse (TokenQueue.ofList ts) = (.ok (.program ns), p) ∧ p.cur.kind = .eof ∧
      p.pulled ≤ ts.length + 3 ∧
      ((∀ t ∈ ts, t.kind ≠ .eof) →
        p.pulled = ts.length +
          (if p.diagnostics.getLast? = some (.noOperand .eof) then 3 else 2) ∧
        p.diagnostics.count (.noOperand .eof) ≤ 1 ∧
        .noOperand .eof ∉ p.diagnostics.dropLast) ∧
      ∃ q, p.program = (.ok (.program []), q) ∧ q.diagnostics = p.diagnostics ∧
        q.pulled = p.pulled := by
  -- The bound holds wherever an end of input stands; the exact count needs that there is none.
  obtain ⟨ss, hss⟩ := exists_facesProgram hlimit
  obtain ⟨p, hparse, heof, hpulled, hdiagnostics⟩ := parse_passes hss
  refine ⟨_, p, hparse, heof, ?_, ?_, ?_⟩
  · have hle := length_tokens_le hss
    omega
  · intro hts
    have hreads := reads_of_facesProgram hts hss
    rw [hpulled, hdiagnostics, length_tokens_of_reads hreads hts]
    refine ⟨?_, hreads.count_eof_le_one hts, notMem_dropLast_of_reads hreads hts⟩
    split <;> omega
  · refine ⟨_, program_of_eof heof, ?_, pulled_note _ _⟩
    rw [diagnostics_note]
    exact List.append_nil _

example : (Diagnostic.noOperand .eof).message = "no prefix parse function for EOF found" := by
  decide

/-- The tokens of `let x = -`. -/
def openLet : List Token :=
  [⟨.letKw, "let", 1, 1⟩, ⟨.ident, "x", 1, 5⟩, ⟨.assign, "=", 1, 7⟩, ⟨.minus, "-", 1, 9⟩]

/-- Four tokens are given and seven pulled, since an operand is looked for behind the last. -/
theorem pulled_of_parse_openLet :
    (∀ t ∈ openLet, t.WithinLimit) ∧ (∀ t ∈ openLet, t.kind ≠ .eof) ∧
      ∃ ns p, parse (TokenQueue.ofList openLet) = (.ok (.program ns), p) ∧
        p.diagnostics = [.noOperand .eof] ∧ p.pulled = 7 := by
  have hlimit : ∀ t ∈ openLet, t.WithinLimit := Token.forall_withinLimit (by decide)
  have hts : ∀ t ∈ openLet, t.kind ≠ .eof := by decide
  have hreads : Reads openLet
      [.full (.letLead ⟨.letKw, "let", 1, 1⟩ ⟨.ident, "x", 1, 5⟩ ⟨.assign, "=", 1, 7⟩)
        ⟨⟨[⟨.minus, "-", 1, 9⟩], .missing .endOfInput⟩, []⟩ none] := ⟨by decide, Or.inr rfl⟩
  obtain ⟨ns, p, hparse, -, -, hexact, -⟩ := pulled_of_parse hlimit
  obtain ⟨-, hdiagnostics⟩ := eq_of_reads hreads hparse
  have hmissing : p.diagnostics = [.noOperand .eof] := hdiagnostics
  refine ⟨hlimit, hts, ns, p, hparse, hmissing, ?_⟩
  rw [(hexact hts).1, hmissing]
  rfl

end MonkeySyntax.Parser
