import MonkeySyntax.Proofs.Conservation

/-!
# Holes of a tree

Every missing child of the tree of a parse stands for one diagnostic, and the other way round. Every
let of the input has its statement, unless a diagnostic stands for the one that was given up, or the
let was met in the place of an operand. So a tree without holes that has all of its lets is one that
no diagnostic was recorded for.
-/

namespace MonkeySyntax

namespace Diagnostic

/-- A child of the tree is missing. -/
def isHole : Diagnostic → Bool
  | noOperand _ | badInteger _ => true
  | _ => false

/-- A let statement is given up. -/
def isDrop : Diagnostic → Bool
  | expectedNext .. => true
  | _ => false

end Diagnostic

theorem Node.holesAll_append (ns ms : List Node) :
    holesAll (ns ++ ms) = holesAll ns + holesAll ms := by
  induction ns with
  | nil => simp [holesAll]
  | cons n ns ih => simp [holesAll, ih, Nat.add_assoc]

namespace Recovery

/-! ## Missing children -/

theorem Operand.childHoles_tree (o : Operand) :
    Node.childHoles o.tree = o.atom.diagnostics.length := by
  obtain ⟨ts, a⟩ := o
  induction ts with
  | nil => rcases a with (_ | _) | _ | _ <;> rfl
  | cons t ts ih => exact ih

/-- Attaching an operator neither fills a hole nor makes one. -/
theorem childHoles_group (left : Option Node) (xs : List Link) :
    Node.childHoles (group left xs) =
      Node.childHoles left + (xs.flatMap fun x => x.2.atom.diagnostics).length := by
  induction xs using group_induct generalizing left with
  | nil => simp
  | cons x xs hattached hleftover =>
    have hxs := congrArg (List.flatMap fun y : Link => y.2.atom.diagnostics)
      (attached_append_leftover x xs)
    rw [List.flatMap_append] at hxs
    rw [group_cons, hleftover, Node.childHoles, Node.holes, hattached, x.2.childHoles_tree,
      List.flatMap_cons, ← hxs]
    simp only [List.length_append]
    omega

theorem Run.childHoles_tree (w : Run) : Node.childHoles w.tree = w.diagnostics.length := by
  rw [tree, childHoles_group, Operand.childHoles_tree, diagnostics, List.length_append]

theorem Atom.isHole_of_mem (a : Atom) : ∀ d ∈ a.diagnostics, d.isHole := by
  cases a <;> simp [diagnostics, Diagnostic.isHole]

theorem Run.isHole_of_mem (w : Run) : ∀ d ∈ w.diagnostics, d.isHole := by
  intro d hd
  rcases List.mem_append.mp hd with hd | hd
  · exact w.first.atom.isHole_of_mem d hd
  · obtain ⟨x, -, hd⟩ := List.mem_flatMap.mp hd
    exact x.2.atom.isHole_of_mem d hd

theorem Run.countP_isDrop (w : Run) : w.diagnostics.countP Diagnostic.isDrop = 0 := by
  rw [List.countP_eq_zero]
  intro d hd
  have hhole := w.isHole_of_mem d hd
  cases d <;> simp [Diagnostic.isHole, Diagnostic.isDrop] at hhole ⊢

theorem Statement.holesAll_tree (s : Statement) :
    Node.holesAll s.tree.toList = s.diagnostics.countP Diagnostic.isHole := by
  cases s with
  | nameless | signless => rfl
  | full lead value semicolon =>
    have hvalue : Node.childHoles value.tree = value.diagnostics.countP Diagnostic.isHole := by
      rw [value.childHoles_tree, List.countP_eq_length.mpr value.isHole_of_mem]
    rw [tree, diagnostics, ← hvalue]
    cases lead <;> simp [Node.holesAll, Lead.tree, Node.holes]

theorem Statement.isHole_or_isDrop (s : Statement) :
    ∀ d ∈ s.diagnostics, d.isHole ∨ d.isDrop := by
  cases s with
  | nameless | signless => simp [diagnostics, Diagnostic.isDrop]
  | full lead value semicolon => exact fun d hd => Or.inl (value.isHole_of_mem d hd)

/-! ## Let statements -/

theorem Lead.countP_let {l : Lead} (h : l.WellFormed) (value : Run) (semicolon : Option Token) :
    l.tokens.countP (·.kind = .letKw) = (Statement.full l value semicolon).isLet.toNat := by
  cases l with
  | letLead word name sign => simp [tokens, Statement.isLet, h.1, h.2.1, h.2.2]
  | returnLead word =>
    have hword : word.kind = .returnKw := h
    simp [tokens, Statement.isLet, hword]
  | plain => rfl

theorem Statement.countP_let {s : Statement} (h : s.WellFormed) :
    s.tokens.countP (·.kind = .letKw) =
      s.isLet.toNat + s.diagnostics.countP Diagnostic.isDrop +
        s.diagnostics.count (.noOperand .letKw) := by
  cases s with
  | nameless word got => simp [tokens, diagnostics, isLet, Diagnostic.isDrop, h.1]
  | signless word name got => simp [tokens, diagnostics, isLet, Diagnostic.isDrop, h.1, h.2.1]
  | full lead value semicolon =>
    have hsemi : semicolon.toList.countP (·.kind = .letKw) = 0 := by
      simp only [List.countP_eq_zero, decide_eq_true_eq]
      intro t ht
      rw [h.2.2.2 t (by simpa using ht)]
      decide
    rw [tokens, List.countP_append, List.countP_append, lead.countP_let h.1 value semicolon,
      value.countP_tokens h.2.1 TokenKind.inert_let, hsemi, diagnostics, value.countP_isDrop]
    rfl

/-! ## Programs -/

namespace Program

variable {ts : List Token} {ss : List Statement}

theorem holesAll_trees (ss : List Statement) :
    Node.holesAll (trees ss) = (diagnostics ss).countP Diagnostic.isHole := by
  induction ss with
  | nil => rfl
  | cons s ss ih =>
    rw [trees_cons, Node.holesAll_append, s.holesAll_tree, ih, diagnostics_cons, List.countP_append]

theorem isHole_or_isDrop (ss : List Statement) : ∀ d ∈ diagnostics ss, d.isHole ∨ d.isDrop := by
  intro d hd
  obtain ⟨s, -, hd⟩ := List.mem_flatMap.mp hd
  exact s.isHole_or_isDrop d hd

theorem countP_let (h : ∀ s ∈ ss, s.WellFormed) :
    (tokens ss).countP (·.kind = .letKw) =
      (trees ss).countP Node.isLet + (diagnostics ss).countP Diagnostic.isDrop +
        (diagnostics ss).count (.noOperand .letKw) := by
  rw [countP_isLet_trees]
  induction ss with
  | nil => rfl
  | cons s ss ih =>
    obtain ⟨hs, hss⟩ := List.forall_mem_cons.mp h
    rw [tokens_cons, diagnostics_cons, List.countP_append, List.countP_append, List.count_append,
      s.countP_let hs, ih hss, countP_isLet_cons]
    omega

/-- The end of input is no let, so that those of a reading are those of the input. -/
theorem countP_let_of_reads (h : Reads ts ss) :
    (tokens ss).countP (·.kind = .letKw) = ts.countP (·.kind = .letKw) := by
  rcases h.tokens with heq | heq
  · rw [heq]
  · rw [heq, List.countP_append]
    rfl

end Program

end Recovery

namespace Parser

open Recovery

/-- Holes and diagnostics correspond, and so do the lets of the input and the let statements. -/
theorem holes_of_parse {ts : List Token} (hts : ∀ t ∈ ts, t.kind ≠ .eof) {n : Node}
    {p : Parser TokenQueue} (hparse : parse (TokenQueue.ofList ts) = (.ok n, p)) :
    n.holes = p.diagnostics.countP Diagnostic.isHole ∧
      ts.countP (·.kind = .letKw) =
        n.statements.countP Node.isLet + p.diagnostics.countP Diagnostic.isDrop +
          p.diagnostics.count (.noOperand .letKw) ∧
      (p.diagnostics = [] ↔
        n.holes = 0 ∧ ts.countP (·.kind = .letKw) = n.statements.countP Node.isLet) := by
  obtain ⟨ss, hss⟩ := reads_of_parse hts hparse
  obtain ⟨rfl, hdiagnostics⟩ := eq_of_reads hss hparse
  have hholes : (Node.program (Program.trees ss)).holes =
      p.diagnostics.countP Diagnostic.isHole := by
    rw [hdiagnostics, Node.holes, Program.holesAll_trees]
  have hlets := Program.countP_let hss.wellFormed
  rw [Program.countP_let_of_reads hss, ← hdiagnostics] at hlets
  refine ⟨hholes, hlets, fun hclean => ?_, fun ⟨hnone, hall⟩ => ?_⟩
  · rw [hclean] at hholes hlets
    exact ⟨hholes, by simpa using hlets⟩
  · rw [Node.statements_program] at hall
    have hhole : p.diagnostics.countP Diagnostic.isHole = 0 := hholes ▸ hnone
    have hdrop : p.diagnostics.countP Diagnostic.isDrop = 0 := by omega
    rw [List.countP_eq_zero] at hhole hdrop
    rw [List.eq_nil_iff_forall_not_mem]
    intro d hd
    rcases Program.isHole_or_isDrop ss d (hdiagnostics ▸ hd) with h | h
    · exact hhole d hd h
    · exact hdrop d hd h

/-- The statements that are read out of `let 5; x + let`. -/
def strayLet : List Statement :=
  [.nameless ⟨.letKw, "let", 1, 1⟩ .int,
    .full .plain ⟨⟨[], .leaf (.integer ⟨.int, "5", 1, 5⟩ 5)⟩, []⟩ (some ⟨.semicolon, ";", 1, 6⟩),
    .full .plain ⟨⟨[], .leaf (.identifier ⟨.ident, "x", 1, 8⟩)⟩,
      [(⟨.plus, "+", 1, 10⟩, ⟨[], .missing ⟨.letKw, "let", 1, 12⟩⟩)]⟩ none]

theorem strayLet_reads : Reads (Program.tokens strayLet) strayLet := ⟨by decide, Or.inl rfl⟩

/-- Of its two lets one is given up; the other is no operand, and leaves the only hole. -/
theorem holes_of_parse_strayLet :
    ∃ n p, parse (TokenQueue.ofList (Program.tokens strayLet)) = (.ok n, p) ∧
      (∀ t ∈ Program.tokens strayLet, t.kind ≠ .eof) ∧
      p.diagnostics = [.expectedNext .ident .int, .noOperand .letKw] ∧
      n.holes = 1 ∧ n.statements.countP Node.isLet = 0 := by
  have hts : ∀ t ∈ Program.tokens strayLet, t.kind ≠ .eof := by decide
  obtain ⟨p, hparse, hdiagnostics⟩ := parse_of_reads strayLet_reads
  obtain ⟨hholes, hlets, -⟩ := holes_of_parse hts hparse
  have hfound : Program.diagnostics strayLet =
      [.expectedNext .ident .int, .noOperand .letKw] := by decide
  have htwo : (Program.tokens strayLet).countP (·.kind = .letKw) = 2 := by decide
  rw [hfound] at hdiagnostics
  rw [hdiagnostics] at hholes hlets
  have hdrop : [.expectedNext .ident .int, .noOperand .letKw].countP Diagnostic.isDrop = 1 := rfl
  have hstray : [.expectedNext .ident .int, .noOperand .letKw].count
      (Diagnostic.noOperand .letKw) = 1 := by decide
  refine ⟨_, p, hparse, hts, hdiagnostics, hholes, ?_⟩
  omega

end Parser

end MonkeySyntax
