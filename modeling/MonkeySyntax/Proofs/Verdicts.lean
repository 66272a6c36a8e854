import MonkeySyntax.Proofs.Faults
import MonkeySyntax.Proofs.Recovery.Reading
import MonkeySyntax.Proofs.Spelling
import MonkeySyntax.Verdict

/-!
# Verdicts on source texts

A verdict is a matter of the spellings of the tokens: texts whose tokens are spelled alike are
rejected alike, or accepted with trees that differ in positions only. The only fault that a text is
rejected for is an integer with too many digits.
-/

namespace MonkeySyntax

open Recovery

section Map

variable {ε ε' α β : Type} {f : α → β} {g : ε → ε'} {x : Except ε α}

theorem except_map_eq_ok_iff {b : β} : x.map f = .ok b ↔ ∃ a, x = .ok a ∧ f a = b := by
  cases x <;> simp [Except.map]

theorem except_map_eq_error_iff {e : ε} : x.map f = .error e ↔ x = .error e := by
  cases x <;> simp [Except.map]

theorem except_mapError_eq_error_iff {e : ε'} :
    x.mapError g = .error e ↔ ∃ d, x = .error d ∧ g d = e := by
  cases x <;> simp [Except.mapError]

end Map

namespace Parser

variable {σ τ : Type}

theorem SameOutcome.verdict {r : Step σ Node} {r' : Step τ Node} (h : SameOutcome r r') :
    (Parser.verdict r).map Node.unplaced = (Parser.verdict r').map Node.unplaced := by
  obtain ⟨hresult, -, hdiagnostics, -⟩ := h
  obtain ⟨f | n, p⟩ := r <;> obtain ⟨f' | m, q⟩ := r'
  · cases hresult
    rfl
  · cases hresult
  · cases hresult
  · have hunplaced : n.unplaced = m.unplaced := Except.ok.inj hresult
    have hreport : p.report? = q.report? := by
      rw [report?, report?, hdiagnostics]
    simp only [Parser.verdict, hreport]
    cases q.report? with
    | none => exact congrArg Except.ok hunplaced
    | some report => rfl

end Parser

variable {source other : String}

theorem check_spelling
    (h : (tokenize source).map Token.spelling = (tokenize other).map Token.spelling) :
    (check source).1.map Node.unplaced = (check other).1.map Node.unplaced := by
  apply Parser.SameOutcome.verdict
  apply Parser.sameOutcome_of_spelling
  intro n
  rw [Parser.spelling_nth_ofString, Parser.spelling_nth_ofString, h]

theorem check_eq_error_of_spelling
    (h : (tokenize source).map Token.spelling = (tokenize other).map Token.spelling)
    {e : Rejection} (he : (check source).1 = .error e) : (check other).1 = .error e := by
  have hcheck := check_spelling h
  rw [he] at hcheck
  exact except_map_eq_error_iff.mp hcheck.symm

theorem exists_check_eq_ok_of_spelling
    (h : (tokenize source).map Token.spelling = (tokenize other).map Token.spelling)
    {n : Node} (hn : (check source).1 = .ok n) :
    ∃ m, (check other).1 = .ok m ∧ m.unplaced = n.unplaced := by
  have hcheck := check_spelling h
  rw [hn] at hcheck
  exact except_map_eq_ok_iff.mp hcheck.symm

/-- A reading of the tokens of a text gives the verdict on it. -/
theorem check_of_reads {ts : List Token} {ss : List Statement} (h : Reads ts ss)
    (hspelling : (tokenize source).map Token.spelling = ts.map Token.spelling ++ [(.eof, "")]) :
    (check source).1.map Node.unplaced =
      match Program.diagnostics ss with
      | [] => .ok (Node.program (Program.trees ss)).unplaced
      | ds => .error (.report ⟨ds⟩) := by
  have hsame := (Parser.sameOutcome_ofString hspelling).verdict
  obtain ⟨p, hparse, hdiagnostics⟩ := Parser.parse_of_reads h
  rw [hparse] at hsame
  apply hsame.trans
  simp only [Parser.verdict, Parser.report?, hdiagnostics]
  cases Program.diagnostics ss <;> rfl

section Reading

variable {ts : List Token} {ss : List Statement}

theorem check_of_no_diagnostics (h : Reads ts ss)
    (hspelling : (tokenize source).map Token.spelling = ts.map Token.spelling ++ [(.eof, "")])
    (hnone : Program.diagnostics ss = []) :
    ∃ n, (check source).1 = .ok n ∧
      n.unplaced = (Node.program (Program.trees ss)).unplaced := by
  have hcheck := check_of_reads h hspelling
  rw [hnone] at hcheck
  exact except_map_eq_ok_iff.mp hcheck

end Reading

end MonkeySyntax
