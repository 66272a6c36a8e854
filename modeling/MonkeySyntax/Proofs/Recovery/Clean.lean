import MonkeySyntax.Grammar.Program
import MonkeySyntax.Proofs.Recovery.Program

/-!
# Programs without a diagnostic

The runs and the statements of the grammar are those that leave no diagnostic. The runs have the
same trees on both sides: grouping links from the left puts the last operator of the lowest rank at
the root.
-/

namespace MonkeySyntax

/-- What starts an operand is no keyword and ends nothing, and of the infix operators it can only be
a minus sign. -/
theorem TokenKind.of_operandRule? {k : TokenKind} (h : k.operandRule? ≠ none) :
    k ≠ .letKw ∧ k ≠ .returnKw ∧ k ≠ .eof ∧ k ≠ .semicolon ∧ (k.isInfix → k = .minus) := by
  cases k <;> first | decide | exact absurd rfl h

namespace Recovery

def Operand.ofGrammar (o : Grammar.Operand) : Operand := ⟨o.operators, .leaf o.leaf⟩

def Link.ofGrammar (x : Grammar.Link) : Link := (x.1, .ofGrammar x.2)

def Run.ofGrammar (w : Grammar.Run) : Run := ⟨.ofGrammar w.first, w.rest.map Link.ofGrammar⟩

namespace Operand

@[simp] theorem bare_ofGrammar (o : Grammar.Operand) : (ofGrammar o).bare = false := by
  obtain ⟨_ | ⟨t, ts⟩, l⟩ := o <;> rfl

theorem tree_ofGrammar (o : Grammar.Operand) : (ofGrammar o).tree = some o.tree := by
  obtain ⟨ts, l⟩ := o
  induction ts with
  | nil => rfl
  | cons t ts ih =>
    have ih : Parser.wrap ts (Atom.leaf l).tree = some (Grammar.Operand.tree ⟨ts, l⟩) := ih
    simp only [tree, ofGrammar, Parser.wrap, Node.wrap, List.map_cons, List.foldr_cons] at ih ⊢
    rw [ih]
    rfl

theorem exists_ofGrammar {o : Operand} (hclean : o.atom.diagnostics = []) :
    ∃ g, o = ofGrammar g := by
  obtain ⟨ts, l | t | t⟩ := o
  · exact ⟨⟨ts, l⟩, rfl⟩
  · cases hclean
  · cases hclean

end Operand

theorem Link.exists_ofGrammar {xs : List Link} (hclean : ∀ x ∈ xs, x.2.atom.diagnostics = []) :
    ∃ gs : List Grammar.Link, xs = gs.map Link.ofGrammar := by
  induction xs with
  | nil => exact ⟨[], rfl⟩
  | cons x xs ih =>
    obtain ⟨o, ho⟩ := Operand.exists_ofGrammar (hclean x (by simp))
    obtain ⟨gs, rfl⟩ := ih fun y hy => hclean y (List.mem_cons_of_mem _ hy)
    refine ⟨(x.1, o) :: gs, ?_⟩
    rw [List.map_cons, Link.ofGrammar, ← ho]

namespace Run

theorem tokens_ofGrammar (w : Grammar.Run) : (ofGrammar w).tokens = w.tokens := by
  simp only [tokens, ofGrammar, Grammar.Run.tokens, List.flatMap_map]
  rfl

theorem head_ofGrammar (w : Grammar.Run) : (ofGrammar w).head = w.first.head := rfl

theorem diagnostics_ofGrammar (w : Grammar.Run) : (ofGrammar w).diagnostics = [] := by
  have hrest : ∀ x ∈ w.rest.map Link.ofGrammar, x.2.atom.diagnostics = [] :=
    List.forall_mem_map.mpr fun _ _ => rfl
  rw [diagnostics, ofGrammar, List.flatMap_eq_nil_iff.mpr hrest]
  rfl

theorem wellFormed_ofGrammar {w : Grammar.Run} : (ofGrammar w).WellFormed ↔ w.WellFormed := by
  constructor
  · rintro ⟨hfirst, -, hrest⟩
    exact ⟨hfirst, fun x hx => hrest _ (List.mem_map_of_mem hx)⟩
  · rintro ⟨hfirst, hrest⟩
    refine ⟨hfirst, fun hbare => by simp [ofGrammar] at hbare, ?_⟩
    exact List.forall_mem_map.mpr hrest

theorem exists_ofGrammar {w : Run} (hclean : w.diagnostics = []) : ∃ g, w = ofGrammar g := by
  obtain ⟨first, rest⟩ := w
  obtain ⟨hfirst, hrest⟩ := List.append_eq_nil_iff.mp hclean
  obtain ⟨o, rfl⟩ := Operand.exists_ofGrammar hfirst
  obtain ⟨xs, rfl⟩ := Link.exists_ofGrammar (List.flatMap_eq_nil_iff.mp hrest)
  exact ⟨⟨o, xs⟩, rfl⟩

/-- Grouping from the left gives the tree with the last operator of the lowest rank at its root. -/
theorem tree_ofGrammar (w : Grammar.Run) : (ofGrammar w).tree = some w.tree := by
  induction w using Grammar.Run.split_induct with
  | single o =>
    rw [Grammar.Run.tree_single, ← Operand.tree_ofGrammar]
    exact group_nil _
  | split o before operator operand behind hb ha hleft hright =>
    rw [Grammar.Run.tree_split hb ha, ← hleft, ← hright]
    simp only [tree, ofGrammar, List.map_append, List.map_cons]
    apply group_append_cons (Operand.bare_ofGrammar operand)
    · exact List.forall_mem_map.mpr hb
    · exact List.forall_mem_map.mpr ha

theorem bare_eq_false {w : Run} (hclean : w.diagnostics = []) : w.first.bare = false := by
  obtain ⟨g, rfl⟩ := exists_ofGrammar hclean
  exact Operand.bare_ofGrammar g.first

theorem startsOperand_head {w : Run} (h : w.WellFormed) (hclean : w.diagnostics = []) :
    w.head.kind ≠ .letKw ∧ w.head.kind ≠ .returnKw ∧ w.head.kind ≠ .eof ∧
      w.head.kind ≠ .semicolon ∧ (w.head.kind.isInfix → w.head.kind = .minus) := by
  apply TokenKind.of_operandRule?
  rw [head, Ne, Operand.operandRule?_head h.1, w.bare_eq_false hclean]
  exact Bool.false_ne_true

end Run

/-! ## Statements -/

namespace Statement

def ofGrammar : Grammar.Statement → Statement
  | ⟨.letClause word name sign value, semicolon⟩ =>
    full (.letLead word name sign) (.ofGrammar value) semicolon
  | ⟨.returnClause word value, semicolon⟩ => full (.returnLead word) (.ofGrammar value) semicolon
  | ⟨.expression value, semicolon⟩ => full .plain (.ofGrammar value) semicolon

theorem tokens_ofGrammar (s : Grammar.Statement) : (ofGrammar s).tokens = s.tokens := by
  obtain ⟨_ | _ | _, semicolon⟩ := s <;>
    simp [ofGrammar, tokens, Lead.tokens, Run.tokens_ofGrammar, Grammar.Statement.tokens,
      Grammar.Clause.tokens]

theorem tree_ofGrammar (s : Grammar.Statement) : (ofGrammar s).tree = some s.clause.tree := by
  obtain ⟨_ | _ | _, semicolon⟩ := s <;>
    simp [ofGrammar, tree, Lead.tree, Run.tree_ofGrammar, Run.head_ofGrammar, Grammar.Clause.tree]

theorem diagnostics_ofGrammar (s : Grammar.Statement) : (ofGrammar s).diagnostics = [] := by
  obtain ⟨_ | _ | _, semicolon⟩ := s <;> exact Run.diagnostics_ofGrammar _

theorem exists_ofGrammar {s : Statement} (hclean : s.diagnostics = []) : ∃ g, s = ofGrammar g := by
  cases s with
  | nameless | signless => cases hclean
  | full lead value semicolon =>
    obtain ⟨w, rfl⟩ := Run.exists_ofGrammar hclean
    cases lead with
    | letLead word name sign => exact ⟨⟨.letClause word name sign w, semicolon⟩, rfl⟩
    | returnLead word => exact ⟨⟨.returnClause word w, semicolon⟩, rfl⟩
    | plain => exact ⟨⟨.expression w, semicolon⟩, rfl⟩

theorem wellFormed_ofGrammar {s : Grammar.Statement} :
    (ofGrammar s).WellFormed ↔ s.WellFormed := by
  obtain ⟨_ | _ | w, semicolon⟩ := s
  · simp [ofGrammar, WellFormed, Lead.WellFormed, Run.wellFormed_ofGrammar,
      Grammar.Statement.WellFormed, Grammar.Clause.WellFormed, and_assoc]
  · simp [ofGrammar, WellFormed, Lead.WellFormed, Run.wellFormed_ofGrammar,
      Grammar.Statement.WellFormed, Grammar.Clause.WellFormed, and_assoc]
  · constructor
    · rintro ⟨-, hw, -, hsemi⟩
      exact ⟨Run.wellFormed_ofGrammar.mp hw, hsemi⟩
    · rintro ⟨hw, hsemi⟩
      have hrun := Run.wellFormed_ofGrammar.mpr hw
      obtain ⟨hlet, hreturn, -⟩ :=
        (Run.ofGrammar w).startsOperand_head hrun (Run.diagnostics_ofGrammar w)
      exact ⟨trivial, hrun, fun _ => ⟨hlet, hreturn⟩, hsemi⟩

theorem head_of_clean {s : Statement} (h : s.WellFormed) (hclean : s.diagnostics = []) :
    s.head.kind ≠ .eof ∧ s.head.kind ≠ .semicolon ∧
      (s.head.kind.isInfix → s.head.kind = .minus) := by
  cases s with
  | nameless | signless => cases hclean
  | full lead value semicolon =>
    cases lead with
    | letLead word name sign =>
      have hword : word.kind = .letKw := h.1.1
      rw [head, Lead.tokens, List.headD_cons, hword]
      decide
    | returnLead word =>
      have hword : word.kind = .returnKw := h.1
      rw [head, Lead.tokens, List.headD_cons, hword]
      decide
    | plain => exact (value.startsOperand_head h.2.1 hclean).2.2

end Statement

end Recovery

end MonkeySyntax
