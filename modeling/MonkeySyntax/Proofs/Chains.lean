import MonkeySyntax.Ast.Nesting
import MonkeySyntax.Ast.Printer

/-!
# Chains of unary operators in a tree

A run of unary operators is gathered by a loop before it is written or recorded. The run and what it
stands before make up the tree, and there is only one way to take it apart like that. The main
statement is that the loops come to the same as recursion from node to node, whatever tokens and
operators a tree holds and whatever stands or is missing in the place of a child.
-/

namespace MonkeySyntax.Node

open Json (Value)

variable {n : Node} {run : List (Token × String)} {operand : Option Node}

/-! ## Taking a tree apart -/

/-- It is no unary operator; a missing child is none either. -/
def EndsRun (operand : Option Node) : Prop :=
  ∀ t operator right, operand ≠ some (prefixOp t operator right)

/-- The run at the top of a child. -/
def childChain : Option Node → List (Token × String) × Option Node
  | some n => n.chain
  | none => ([], none)

theorem chain_prefixOp (t : Token) (operator : String) (right : Option Node) :
    (prefixOp t operator right).chain =
      ((t, operator) :: (childChain right).1, (childChain right).2) := by
  cases right <;> rfl

theorem childChain_of_endsRun (h : EndsRun operand) : childChain operand = ([], operand) := by
  cases operand with
  | none => rfl
  | some n =>
    cases n with
    | prefixOp t operator right => exact absurd rfl (h t operator right)
    | _ => rfl

@[simp] theorem wrap_nil (operand : Option Node) : wrap [] operand = operand := rfl

@[simp] theorem wrap_cons (p : Token × String) (run : List (Token × String))
    (operand : Option Node) :
    wrap (p :: run) operand = some (prefixOp p.1 p.2 (wrap run operand)) := rfl

/-- Putting the operators back before the operand restores the tree. -/
theorem wrap_chain (n : Node) :
    wrap n.chain.1 n.chain.2 = some n ∧ EndsRun n.chain.2 := by
  induction n with
  | prefixOp t operator right ih =>
    rw [chain_prefixOp, wrap_cons]
    cases right with
    | none => exact ⟨rfl, by simp [EndsRun, childChain]⟩
    | some m =>
      obtain ⟨hwrap, hends⟩ := ih m rfl
      exact ⟨by simp only [childChain, hwrap], hends⟩
  | _ => exact ⟨rfl, by simp [EndsRun, chain]⟩

theorem childChain_wrap (h : EndsRun operand) : childChain (wrap run operand) = (run, operand) := by
  induction run with
  | nil => exact childChain_of_endsRun h
  | cons p run ih => rw [wrap_cons, childChain, chain_prefixOp, ih]

/-- Operators before what is no operator: that is the run, none left out, and what it stands
before. -/
theorem chain_eq_iff : n.chain = (run, operand) ↔ wrap run operand = some n ∧ EndsRun operand := by
  constructor
  · intro h
    have hchain := n.wrap_chain
    rwa [h] at hchain
  · rintro ⟨hwrap, hends⟩
    have hchain : childChain (wrap run operand) = (run, operand) := childChain_wrap hends
    rwa [hwrap] at hchain

/-! ## Writing and recording a run -/

theorem childText_wrap (run : List (Token × String)) (operand : Option Node) :
    childText (wrap run operand) =
      String.join (run.map fun p => "(" ++ p.2) ++ childText operand ++
        String.ofList (List.replicate run.length ')') := by
  induction run with
  | nil =>
    apply String.toList_inj.mp
    simp
  | cons p run ih =>
    rw [wrap_cons, childText_some, text_prefixOp, ih]
    apply String.toList_inj.mp
    simp [List.replicate_succ', String.toList_join]

theorem childRecord_wrap (run : List (Token × String)) (operand : Option Node) :
    childRecord (wrap run operand) =
      run.reverse.foldl (fun v p => prefixRecord p.1 p.2 v) (childRecord operand) := by
  rw [List.foldl_reverse]
  induction run with
  | nil => rfl
  | cons p run ih => rw [wrap_cons, childRecord_some, toRecord_prefixOp, ih, List.foldr_cons]

/-! ## Recursion from node to node -/

theorem childText_eq_nested {o : Option Node} (h : ∀ n ∈ o, n.text = n.nestedText) :
    childText o = nestedChildText o := by
  cases o with
  | none => rfl
  | some n => exact h n rfl

theorem textAll_eq_nested {ns : List Node} (h : ∀ n ∈ ns, n.text = n.nestedText) :
    textAll ns = nestedTextAll ns := by
  induction ns with
  | nil => rfl
  | cons n ns ih =>
    obtain ⟨hn, hns⟩ := List.forall_mem_cons.mp h
    rw [textAll, nestedTextAll, hn, ih hns]

theorem text_eq_nestedText (n : Node) : n.text = n.nestedText := by
  induction n with
  | bare | identifier | integer => rfl
  | prefixOp t o right ih => rw [text_prefixOp, nestedText, childText_eq_nested ih]
  | infixOp t o left right ihl ihr =>
    rw [text, nestedText, childText_eq_nested ihl, childText_eq_nested ihr]
  | letStmt t name value ihn ihv => rw [text, nestedText, ihn, childText_eq_nested ihv]
  | returnStmt t value ih => rw [text, nestedText, childText_eq_nested ih]
  | exprStmt t expression ih => exact childText_eq_nested ih
  | program statements ih => exact textAll_eq_nested ih

theorem childRecord_eq_nested {o : Option Node} (h : ∀ n ∈ o, n.toRecord = n.nestedRecord) :
    childRecord o = nestedChildRecord o := by
  cases o with
  | none => rfl
  | some n => exact h n rfl

theorem recordAll_eq_nested {ns : List Node} (h : ∀ n ∈ ns, n.toRecord = n.nestedRecord) :
    recordAll ns = nestedRecordAll ns := by
  induction ns with
  | nil => rfl
  | cons n ns ih =>
    obtain ⟨hn, hns⟩ := List.forall_mem_cons.mp h
    rw [recordAll, nestedRecordAll, hn, ih hns]

theorem toRecord_eq_nestedRecord (n : Node) : n.toRecord = n.nestedRecord := by
  induction n with
  | bare | identifier | integer => rfl
  | prefixOp t o right ih =>
    rw [toRecord_prefixOp, prefixRecord, nestedRecord, childRecord_eq_nested ih]
  | infixOp t o left right ihl ihr =>
    rw [toRecord, nestedRecord, childRecord_eq_nested ihl, childRecord_eq_nested ihr]
  | letStmt t name value ihn ihv => rw [toRecord, nestedRecord, ihn, childRecord_eq_nested ihv]
  | returnStmt t value ih => rw [toRecord, nestedRecord, childRecord_eq_nested ih]
  | exprStmt t expression ih => rw [toRecord, nestedRecord, childRecord_eq_nested ih]
  | program statements ih => rw [toRecord, nestedRecord, recordAll_eq_nested ih]

/-! ## Loops and recursion -/

/-- The run at the top of a tree is all its unary operators from the outermost to the first that
stands before something else, and nothing else than that makes up the tree again. The loops that
write and record it give every operator the text and the record of its own operand; so text and
record of any tree are those of recursion from node to node. -/
theorem loops_eq_recursion (n : Node) (t : Token) (operator : String) (right : Option Node) :
    (∀ run operand, n.chain = (run, operand) ↔
      wrap run operand = some n ∧ ∀ u o r, operand ≠ some (prefixOp u o r)) ∧
    n.text = String.join (n.chain.1.map fun p => "(" ++ p.2) ++ childText n.chain.2 ++
      String.ofList (List.replicate n.chain.1.length ')') ∧
    n.toRecord =
      n.chain.1.reverse.foldl (fun v p => prefixRecord p.1 p.2 v) (childRecord n.chain.2) ∧
    (prefixOp t operator right).text = "(" ++ operator ++ childText right ++ ")" ∧
    (prefixOp t operator right).toRecord = .object [("kind", .string "prefix"),
      ("token", .string t.literal), ("operator", .string operator), ("right", childRecord right)] ∧
    n.text = n.nestedText ∧ n.toRecord = n.nestedRecord := by
  have hwhole := n.wrap_chain.1
  have htext := childText_wrap n.chain.1 n.chain.2
  have hrecord := childRecord_wrap n.chain.1 n.chain.2
  rw [hwhole] at htext hrecord
  refine ⟨?_, htext, hrecord, text_prefixOp t operator right, toRecord_prefixOp t operator right,
    n.text_eq_nestedText, n.toRecord_eq_nestedRecord⟩
  intro run operand
  exact chain_eq_iff

end MonkeySyntax.Node
