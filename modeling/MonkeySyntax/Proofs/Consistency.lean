import MonkeySyntax.Ast.Consistent
import MonkeySyntax.Proofs.Numerals
import MonkeySyntax.Proofs.Recovery.Reading

/-!
# Consistency of parsed trees

Every tree that the parser builds is consistent, whatever tokens it was given. A bare operand leaves
a hole behind its operator, and the operator behind it, of any rank, takes the tree with the hole
for its left operand. The main statement is that all nodes of a parsed program agree with their
tokens and their children.
-/

namespace MonkeySyntax

open Node (Everywhere Consistent)

theorem TokenKind.isInfix_iff {k : TokenKind} :
    k.isInfix ↔ k ∈ [.plus, .minus, .asterisk, .slash, .lt, .gt, .eq, .notEq] := by
  cases k <;> decide

namespace Recovery

/-! ## Operands -/

theorem Atom.tree_consistent {a : Atom} (h : a.WellFormed) :
    ∀ n ∈ a.tree, n.Everywhere Consistent ∧ n.IsOperand ∧ n.leftmost? = some a.token := by
  intro n hn
  cases a with
  | leaf l =>
    obtain rfl := Option.mem_some_iff.mp hn
    cases l with
    | identifier t => exact ⟨.intro ⟨h, rfl⟩ (List.forall_mem_nil _), trivial, rfl⟩
    | integer t v =>
      obtain ⟨hkind, hread⟩ := h
      have hconsistent : Consistent (.integer t v) := ⟨hkind, hread, range_of_readInt64 hread⟩
      exact ⟨.intro hconsistent (List.forall_mem_nil _), trivial, rfl⟩
  | badInteger | missing => cases hn

/-- An operand is consistent, is no infix operation, and starts where its tokens do. -/
theorem Operand.tree_consistent {o : Operand} (h : o.WellFormed) :
    ∀ n ∈ o.tree, n.Everywhere Consistent ∧ n.IsOperand ∧ n.leftmost? = some o.head := by
  obtain ⟨ts, a⟩ := o
  induction ts with
  | nil => exact Atom.tree_consistent h.2
  | cons t ts ih =>
    obtain ⟨hts, ha⟩ := h
    obtain ⟨ht, hts⟩ := List.forall_mem_cons.mp hts
    have hright := ih ⟨hts, ha⟩
    intro n hn
    obtain rfl := Option.mem_some_iff.mp hn
    have hkind : t.kind = .bang ∨ t.kind = .minus := by simpa [TokenKind.isUnary] using ht
    refine ⟨.intro ⟨hkind, rfl, fun m hm => (hright m hm).2.1⟩ ?_, trivial, rfl⟩
    intro m hm
    exact (hright m (Option.mem_toList.mp hm)).1

/-! ## Groups -/

/-- The root of a group is its left operand or one of its links. -/
theorem group_root {left : Option Node} {xs : List Link} {n : Node} (h : n ∈ group left xs) :
    n ∈ left ∨ ∃ x ∈ xs, ∃ l r, n = .infixOp x.1 x.1.literal l r := by
  induction xs using group_induct generalizing left with
  | nil =>
    rw [group_nil] at h
    exact Or.inl h
  | cons x xs _ ih =>
    rw [group_cons] at h
    right
    rcases ih h with hroot | ⟨y, hy, hroot⟩
    · exact ⟨x, List.mem_cons_self, _, _, (Option.mem_some_iff.mp hroot).symm⟩
    · have hmem : y ∈ attached x xs ++ leftover x xs := List.mem_append_right _ hy
      rw [attached_append_leftover] at hmem
      exact ⟨y, List.mem_cons_of_mem _ hmem, hroot⟩

theorem leftmost?_group (left : Option Node) (xs : List Link) :
    (group left xs).bind Node.leftmost? = left.bind Node.leftmost? := by
  induction xs using group_induct generalizing left with
  | nil => rw [group_nil]
  | cons x xs _ ih => rw [group_cons, ih, Option.bind_some, Node.leftmost?_infixOp]

/-- A group is consistent where its left operand is and may stand to the left of the first link. -/
theorem group_consistent {left : Option Node} {xs : List Link} (hxs : ∀ x ∈ xs, x.WellFormed)
    (hleft : ∀ n ∈ left, n.Everywhere Consistent)
    (hfits : ∀ x ∈ xs.head?, ∀ n ∈ left, n.FitsLeft x.1) :
    ∀ n ∈ group left xs, n.Everywhere Consistent := by
  induction xs using group_induct generalizing left with
  | nil =>
    rw [group_nil]
    exact hleft
  | cons x xs hattached hleftover =>
    obtain ⟨hx, hxs⟩ := List.forall_mem_cons.mp hxs
    rw [← attached_append_leftover x xs, List.forall_mem_append] at hxs
    have hoperand := Operand.tree_consistent hx.2
    have hright : ∀ n ∈ group x.2.tree (attached x xs), n.Everywhere Consistent := by
      apply hattached hxs.1
      · exact fun n hn => (hoperand n hn).1
      · exact fun y _ n hn => (hoperand n hn).2.1.fitsLeft
    have hfitsRight : ∀ n ∈ group x.2.tree (attached x xs), n.FitsRight x.1 := by
      intro n hn
      rcases group_root hn with hroot | ⟨y, hy, l, r, rfl⟩
      · exact (hoperand n hroot).2.1.fitsRight
      · exact lt_of_mem_attached hy
    rw [group_cons]
    apply hleftover hxs.2
    · intro n hn
      obtain rfl := Option.mem_some_iff.mp hn
      refine .intro ⟨TokenKind.isInfix_iff.mp hx.1, rfl, hfits x rfl, hfitsRight⟩ ?_
      intro m hm
      rcases List.mem_append.mp hm with hm | hm
      · exact hleft m (Option.mem_toList.mp hm)
      · exact hright m (Option.mem_toList.mp hm)
    · intro y hy n hn
      obtain rfl := Option.mem_some_iff.mp hn
      cases hbare : x.2.bare with
      | true =>
        -- nothing is attached to a bare operand, so that the operator keeps a hole
        obtain ⟨t, ht⟩ := Operand.bare_iff.mp hbare
        right
        rw [attached, if_pos hbare, group_nil, ht]
        rfl
      | false =>
        obtain ⟨ys, hys⟩ := List.head?_eq_some_iff.mp hy
        have hrank := not_lt_head_leftover hbare hys
        exact Or.inl (by omega)

/-! ## Statements -/

/-- The expression of a run starts where its tokens do, unless its leftmost operand is missing. -/
theorem Run.tree_consistent {w : Run} (h : w.WellFormed) :
    ∀ n ∈ w.tree, n.Everywhere Consistent ∧ n.IsExpression ∧ ∀ u ∈ n.leftmost?, w.head = u := by
  obtain ⟨hfirst, -, hrest⟩ := h
  have hoperand := Operand.tree_consistent hfirst
  intro n hn
  refine ⟨?_, ?_, ?_⟩
  · apply group_consistent hrest
    · exact fun m hm => (hoperand m hm).1
    · exact fun y _ m hm => (hoperand m hm).2.1.fitsLeft
    · exact hn
  · rcases group_root hn with hroot | ⟨x, -, l, r, rfl⟩
    · exact (hoperand n hroot).2.1.isExpression
    · trivial
  · intro u hu
    have hleft : w.first.tree.bind Node.leftmost? = some u := by
      rw [← leftmost?_group w.first.tree w.rest]
      exact Option.bind_eq_some_iff.mpr ⟨n, hn, hu⟩
    obtain ⟨m, hm, hum⟩ := Option.bind_eq_some_iff.mp hleft
    exact Option.some.inj ((hoperand m hm).2.2.symm.trans hum)

theorem Statement.tree_consistent {s : Statement} (h : s.WellFormed) (heof : s.head.kind ≠ .eof) :
    ∀ n ∈ s.tree, n.Everywhere Consistent ∧ n.IsStatement := by
  intro n hn
  cases s with
  | nameless | signless => cases hn
  | full lead value semicolon =>
    obtain ⟨hlead, hvalue, hplain, -⟩ := h
    have hvalue := Run.tree_consistent hvalue
    have hbelow : ∀ m ∈ value.tree.toList, m.Everywhere Consistent := by
      intro m hm
      exact (hvalue m (Option.mem_toList.mp hm)).1
    obtain rfl := Option.mem_some_iff.mp hn
    cases lead with
    | letLead word name sign =>
      obtain ⟨hword, hname, -⟩ := hlead
      have hidentifier : (Node.identifier name name.literal).Everywhere Consistent :=
        .intro ⟨hname, rfl⟩ (List.forall_mem_nil _)
      refine ⟨.intro ⟨hword, ⟨name, hname, rfl⟩, fun m hm => (hvalue m hm).2.1⟩ ?_, trivial⟩
      exact List.forall_mem_cons.mpr ⟨hidentifier, hbelow⟩
    | returnLead word =>
      exact ⟨.intro ⟨hlead, fun m hm => (hvalue m hm).2.1⟩ hbelow, trivial⟩
    | plain =>
      obtain ⟨hlet, hreturn⟩ := hplain rfl
      exact ⟨.intro ⟨hlet, hreturn, heof, fun m hm => (hvalue m hm).2⟩ hbelow, trivial⟩

theorem Program.trees_consistent {ss : List Statement} {next : Token}
    (h : Program.Chained ss next) :
    ∀ n ∈ Program.trees ss, n.Everywhere Consistent ∧ n.IsStatement := by
  induction ss with
  | nil => exact List.forall_mem_nil _
  | cons s ss ih =>
    obtain ⟨hs, heof, -, hss⟩ := h
    rw [Program.trees_cons, List.forall_mem_append]
    constructor
    · intro n hn
      exact s.tree_consistent hs heof n (Option.mem_toList.mp hn)
    · exact ih hss

end Recovery

namespace Parser

open Recovery

variable {σ : Type} [TokenSource σ]

/-- Whatever the tokens are, a parse that answers gives a program that is consistent everywhere. -/
theorem consistent_of_parse {s : σ} {n : Node} {p : Parser σ} (h : parse s = (.ok n, p)) :
    (∃ statements, n = .program statements) ∧ n.Everywhere Consistent := by
  obtain ⟨ss, hfaces, rfl, -⟩ := facesProgram_of_parse h
  have htrees := Program.trees_consistent hfaces.chained
  constructor
  · exact ⟨_, rfl⟩
  · exact .intro (fun n hn => (htrees n hn).2) (fun n hn => (htrees n hn).1)

/-- The statement that is read out of `1 + ) * 2`. -/
def climbedHole : List Statement :=
  [.full .plain ⟨⟨[], .leaf (.integer ⟨.int, "1", 1, 1⟩ 1)⟩,
      [(⟨.plus, "+", 1, 3⟩, ⟨[], .missing ⟨.rparen, ")", 1, 5⟩⟩),
        (⟨.asterisk, "*", 1, 7⟩, ⟨[], .leaf (.integer ⟨.int, "2", 1, 9⟩ 2)⟩)]⟩ none]

theorem climbedHole_reads : Reads (Program.tokens climbedHole) climbedHole :=
  ⟨by decide, Or.inl rfl⟩

/-- The product holds the sum on its left, whose right operand is missing. -/
theorem consistent_of_parse_climbedHole :
    ∃ n p, parse (TokenQueue.ofList (Program.tokens climbedHole)) = (.ok n, p) ∧
      n.Everywhere Consistent ∧
      n = .program [.exprStmt ⟨.int, "1", 1, 1⟩ (some (.infixOp ⟨.asterisk, "*", 1, 7⟩ "*"
        (some (.infixOp ⟨.plus, "+", 1, 3⟩ "+" (some (.integer ⟨.int, "1", 1, 1⟩ 1)) none))
        (some (.integer ⟨.int, "2", 1, 9⟩ 2))))] := by
  obtain ⟨p, hparse, -⟩ := parse_of_reads climbedHole_reads
  refine ⟨_, p, hparse, (consistent_of_parse hparse).2, ?_⟩
  simp only [climbedHole, Program.trees, List.filterMap_cons, Statement.tree, Run.tree, group_cons,
    attached, leftover, Operand.bare, if_true, group_nil, List.takeWhile_nil, List.dropWhile_nil,
    Bool.false_eq_true, if_false]
  rfl

end Parser

end MonkeySyntax
