import Mathlib.Data.List.GetD
import MonkeySyntax.Parser.Operation
import MonkeySyntax.Proofs.Recovery.Parse

/-!
# The window of a parser

Whatever a parser is made to do, it only advances and adds to its log, also where it breaks off half
way. So it never goes back: the tokens that it took are the first of its source, the two in sight
are the last that it took, and no diagnostic is ever withdrawn. The main statement says so of any
operations in any order.
-/

namespace MonkeySyntax.Parser

open Recovery

variable {σ : Type} [TokenSource σ] {p q r : Parser σ}

/-! ## What a parser can come to -/

/-- The parser comes to the other one by advances and entries in its log. -/
inductive Leads (p : Parser σ) : Parser σ → Prop
  | refl : Leads p p
  | advance {q : Parser σ} : Leads p q → Leads p q.advance
  | note {q : Parser σ} (e : LogEntry) : Leads p q → Leads p (q.note e)

namespace Leads

theorem trans (h : p.Leads q) (h' : q.Leads r) : p.Leads r := by
  induction h' with
  | refl => exact h
  | advance _ ih => exact ih.advance
  | note e _ ih => exact ih.note e

theorem follow (h : p.Leads q) (ms : List Move) : p.Leads (q.follow ms) := by
  induction ms generalizing q with
  | nil => exact h
  | cons m ms ih =>
    cases m with
    | advance => exact ih h.advance
    | diagnose d => exact ih (h.note _)

theorem expect (h : p.Leads q) (kind : TokenKind) : p.Leads (q.expect kind).2 := by
  unfold Parser.expect
  split
  · exact h.advance
  · exact h.note _

theorem skipSemicolon (h : p.Leads q) : p.Leads q.skipSemicolon := by
  unfold Parser.skipSemicolon
  split
  · exact h.advance
  · exact h

/-- A step that goes on from another one ends where that one did, or further on. -/
theorem andThen {α β : Type} {s : Step σ α} {f : α → Parser σ → Step σ β} (h : p.Leads s.2)
    (hf : ∀ a q, p.Leads q → p.Leads (f a q).2) : p.Leads (s.andThen f).2 := by
  rcases s with ⟨_ | a, q⟩
  · exact h
  · exact hf a q h

theorem of_overlong {α : Type} {s : Step σ α} (h : p.Overlong s) : p.Leads s.2 := by
  obtain ⟨ms, -, e, rfl, -⟩ := h
  exact Leads.refl.follow ms

theorem pulled_le (h : p.Leads q) : p.pulled ≤ q.pulled := by
  induction h with
  | refl => exact Nat.le_refl _
  | advance _ ih =>
    rw [pulled_advance]
    omega
  | note e _ ih => exact ih

theorem diagnostics_prefix (h : p.Leads q) : p.diagnostics <+: q.diagnostics := by
  induction h with
  | refl => exact List.prefix_refl _
  | advance _ ih => rwa [diagnostics_advance]
  | note e _ ih =>
    rw [diagnostics_note]
    exact ih.trans (List.prefix_append _ _)

end Leads

/-! ## Every operation leads on -/

theorem leads_integer (p : Parser σ) : p.Leads p.integer.2 := by
  unfold integer
  split
  · exact .refl
  · exact Leads.refl.note _
  · exact .refl

theorem leads_operand (p : Parser σ) : p.Leads p.operand.2 := by
  rcases p.operand_cases with ⟨o, hwf, hfaces⟩ | hover
  · rw [operand_eq_tree hwf hfaces]
    exact Leads.refl.follow _
  · exact .of_overlong hover

theorem leads_unaryExpression (p : Parser σ) : p.Leads p.unaryExpression.2 := by
  apply Leads.andThen p.leads_operand
  rintro (_ | n) q hq
  · exact hq
  · exact hq

theorem leads_expression (rank : Int) (p : Parser σ) : p.Leads (p.expression rank).2 := by
  rcases p.expression_cases rank with ⟨w, hw⟩ | hover
  · rw [expression_eq_tree hw]
    exact Leads.refl.follow _
  · exact .of_overlong hover

/-- An expression as the value of a statement, with the semicolon behind it. -/
theorem Leads.value {α : Type} (h : p.Leads q) (f : Option Node → α) :
    p.Leads ((q.expression Precedence.lowest.rank).andThen fun v r =>
      (.ok (f v), r.skipSemicolon)).2 := by
  apply Leads.andThen (h.trans (q.leads_expression _))
  intro v r hr
  exact hr.skipSemicolon

theorem leads_letStatement (p : Parser σ) : p.Leads p.letStatement.2 := by
  unfold letStatement
  have hname := Leads.refl.expect (p := p) .ident
  split
  · rename_i q hexpect
    rwa [hexpect] at hname
  · rename_i q hexpect
    rw [hexpect] at hname
    have hsign := hname.expect .assign
    split
    · rename_i r hexpect
      rwa [hexpect] at hsign
    · rename_i r hexpect
      rw [hexpect] at hsign
      exact hsign.advance.value _

theorem leads_returnStatement (p : Parser σ) : p.Leads p.returnStatement.2 :=
  Leads.refl.advance.value _

theorem leads_expressionStatement (p : Parser σ) : p.Leads p.expressionStatement.2 :=
  Leads.refl.value _

theorem leads_statement (p : Parser σ) : p.Leads p.statement.2 := by
  unfold statement
  split
  · exact p.leads_letStatement
  · exact p.leads_returnStatement
  · exact p.leads_expressionStatement

theorem leads_statements (p : Parser σ) : p.Leads p.statements.2 := by
  rcases p.statements_cases with ⟨ss, hss⟩ | hover
  · rw [statements_eq_trees hss]
    exact Leads.refl.follow _
  · exact .of_overlong hover

theorem leads_program (p : Parser σ) : p.Leads p.program.2 := by
  apply Leads.andThen p.leads_statements
  intro ss q hq
  exact hq.note _

theorem Operation.leads_run (o : Operation) (p : Parser σ) : p.Leads (o.run p).2 := by
  cases o with
  | advance => exact Leads.refl.advance
  | expect kind => exact Leads.refl.expect kind
  | missNext | missOperand | remark => exact Leads.refl.note _
  | identifier => exact .refl
  | integer => exact p.leads_integer
  | unaryExpression => exact p.leads_unaryExpression
  | infixExpression left => exact Leads.refl.advance.trans (p.advance.leads_expression _)
  | expression rank => exact p.leads_expression rank
  | letStatement => exact p.leads_letStatement
  | returnStatement => exact p.leads_returnStatement
  | expressionStatement => exact p.leads_expressionStatement
  | statement => exact p.leads_statement
  | program => exact p.leads_program

theorem leads_after (p : Parser σ) (os : List Operation) : p.Leads (p.after os) := by
  induction os generalizing p with
  | nil => exact .refl
  | cons o os ih => exact (o.leads_run p).trans (ih _)

/-! ## Prepared tokens -/

/-- The tokens taken from a list are its first ones, with ends of input behind its last; two of them
are in sight, and the others of the list are still to come. -/
structure Window (ts : List Token) (p : Parser TokenQueue) : Prop where
  two_le_pulled : 2 ≤ p.pulled
  cur : p.cur = ts.getD (p.pulled - 2) .endOfInput
  peek : p.peek = ts.getD (p.pulled - 1) .endOfInput
  source : p.source = ⟨ts.drop p.pulled, min p.pulled ts.length⟩

namespace Window

variable {ts : List Token} {p q : Parser TokenQueue}

theorem next_drop (ts : List Token) (n : Nat) :
    TokenQueue.next ⟨ts.drop n, min n ts.length⟩ =
      (ts.getD n .endOfInput, ⟨ts.drop (n + 1), min (n + 1) ts.length⟩) := by
  by_cases hn : n < ts.length
  · rw [List.drop_eq_getElem_cons hn, List.getD_eq_getElem _ _ hn]
    have hserved : min n ts.length + 1 = min (n + 1) ts.length := by omega
    simp only [TokenQueue.next, hserved]
  · have hle : ts.length ≤ n := Nat.le_of_not_lt hn
    rw [List.drop_of_length_le hle, List.drop_of_length_le (Nat.le_succ_of_le hle),
      List.getD_eq_default _ _ hle]
    have hserved : min n ts.length = min (n + 1) ts.length := by omega
    simp only [TokenQueue.next, hserved]

theorem advance (h : Window ts p) : Window ts p.advance := by
  have hpull : TokenSource.pull p.source =
      (ts.getD p.pulled .endOfInput, ⟨ts.drop (p.pulled + 1), min (p.pulled + 1) ts.length⟩) := by
    rw [h.source]
    exact next_drop ts p.pulled
  have htwo := h.two_le_pulled
  constructor
  · rw [pulled_advance]
    omega
  · have hback : p.pulled + 1 - 2 = p.pulled - 1 := by omega
    rw [cur_advance, pulled_advance, hback, h.peek]
  · simp only [Parser.advance, hpull, Nat.add_sub_cancel]
  · simp only [Parser.advance, hpull]

theorem note (h : Window ts p) (e : LogEntry) : Window ts (p.note e) :=
  ⟨h.two_le_pulled, h.cur, h.peek, h.source⟩

theorem leads (h : Window ts p) (hleads : p.Leads q) : Window ts q := by
  induction hleads with
  | refl => exact h
  | advance _ ih => exact ih.advance
  | note e _ ih => exact ih.note e

theorem ofSource (ts : List Token) : Window ts (ofSource (TokenQueue.ofList ts)) := by
  match ts with
  | [] | [_] | _ :: _ :: _ => exact ⟨Nat.le_refl 2, rfl, rfl, rfl⟩

end Window

/-- Operations in any order keep the window where it is or move it on. Of the tokens that were taken
from a list, continued by ends of input, the last two are in sight; none of the operations gives a
token back or withdraws a diagnostic, also where it ends in a fault; and to expect a kind takes one
token if it is there, and otherwise none, with one diagnostic that says so. -/
theorem window_after (ts : List Token) (os : List Operation) :
    let p := (ofSource (TokenQueue.ofList ts)).after os
    (2 ≤ p.pulled ∧ p.cur = ts.getD (p.pulled - 2) .endOfInput ∧
      p.peek = ts.getD (p.pulled - 1) .endOfInput ∧
      p.source = ⟨ts.drop p.pulled, min p.pulled ts.length⟩) ∧
    (∀ o : Operation, p.pulled ≤ (o.run p).2.pulled ∧ p.diagnostics <+: (o.run p).2.diagnostics) ∧
    ∀ kind : TokenKind,
      (p.peek.kind = kind → ∃ q, (Operation.expect kind).run p = (.ok (.flag true), q) ∧
        q.pulled = p.pulled + 1 ∧ q.diagnostics = p.diagnostics) ∧
      (p.peek.kind ≠ kind → ∃ q, (Operation.expect kind).run p = (.ok (.flag false), q) ∧
        q.pulled = p.pulled ∧
        q.diagnostics = p.diagnostics ++ [.expectedNext kind p.peek.kind]) := by
  intro p
  have hwindow : Window ts p := (Window.ofSource ts).leads (leads_after _ os)
  refine ⟨⟨hwindow.two_le_pulled, hwindow.cur, hwindow.peek, hwindow.source⟩, ?_, ?_⟩
  · intro o
    have hleads := o.leads_run p
    exact ⟨hleads.pulled_le, hleads.diagnostics_prefix⟩
  · intro kind
    constructor
    · intro hthere
      refine ⟨p.advance, ?_, p.pulled_advance, p.diagnostics_advance⟩
      simp only [Operation.run, expect, if_pos hthere]
    · intro hmissing
      refine ⟨p.diagnose (.expectedNext kind p.peek.kind), ?_, pulled_diagnose .., ?_⟩
      · simp only [Operation.run, expect, if_neg hmissing]
      · exact diagnostics_diagnose ..

end MonkeySyntax.Parser
