import MonkeySyntax.Ast.Basic
import MonkeySyntax.Numeral
import MonkeySyntax.Token.Kind

/-!
# Runs of operands

The expressions of the language as they stand in a source: operands with infix operators between
them. The tree of a run is given without a parser: the last operator of the lowest rank is its root,
and the parts of the run before and behind that operator are its children. The main statement is
that this operator is split off in one way only.
-/

namespace MonkeySyntax.Grammar

/-- The innermost part of an operand. -/
inductive Leaf where
  | identifier (token : Token)
  | integer (token : Token) (value : Int)
deriving DecidableEq, Repr

namespace Leaf

def token : Leaf → Token
  | identifier t | integer t _ => t

def tree : Leaf → Node
  | identifier t => .identifier t t.literal
  | integer t v => .integer t v

/-- The token is of the right kind, and an integer has the value that its literal denotes. -/
def WellFormed : Leaf → Prop
  | identifier t => t.kind = .ident
  | integer t v => t.kind = .int ∧ readInt64 t.literal = .ok (some v)

end Leaf

/-- A leaf behind unary operators, the outermost first. -/
structure Operand where
  operators : List Token
  leaf : Leaf
deriving DecidableEq, Repr

namespace Operand

def tokens (o : Operand) : List Token := o.operators ++ [o.leaf.token]

/-- The token that the operand starts with. -/
def head (o : Operand) : Token := o.operators.headD o.leaf.token

def tree (o : Operand) : Node :=
  o.operators.foldr (fun t n => .prefixOp t t.literal (some n)) o.leaf.tree

def WellFormed (o : Operand) : Prop :=
  (∀ t ∈ o.operators, t.kind.isUnary) ∧ o.leaf.WellFormed

end Operand

/-- An infix operator with the operand behind it. -/
abbrev Link := Token × Operand

/-- Splits at the last operator of the lowest rank. -/
def splitLowest? : List Link → Option (List Link × Link × List Link)
  | [] => none
  | x :: xs =>
    match splitLowest? xs with
    | none => some ([], x, [])
    | some (before, y, behind) =>
      if y.1.kind.rank ≤ x.1.kind.rank then some (x :: before, y, behind) else some ([], x, xs)

theorem splitLowest?_eq_none_iff {xs : List Link} : splitLowest? xs = none ↔ xs = [] := by
  cases xs with
  | nil => simp [splitLowest?]
  | cons x xs =>
    simp only [splitLowest?]
    split
    · simp
    · split <;> simp

/-- No operator before the split ranks lower, and every operator behind it ranks higher. -/
theorem splitLowest?_sound {xs before behind : List Link} {y : Link}
    (h : splitLowest? xs = some (before, y, behind)) :
    xs = before ++ y :: behind ∧ (∀ x ∈ before, y.1.kind.rank ≤ x.1.kind.rank) ∧
      ∀ x ∈ behind, y.1.kind.rank < x.1.kind.rank := by
  induction xs generalizing before y behind with
  | nil => cases h
  | cons x xs ih =>
    simp only [splitLowest?] at h
    split at h
    · rename_i hn
      cases h
      simp [splitLowest?_eq_none_iff.mp hn]
    · rename_i b z a hs
      obtain ⟨rfl, hb, ha⟩ := ih hs
      split at h
      · rename_i hle
        cases h
        refine ⟨rfl, ?_, ha⟩
        intro w hw
        rcases List.mem_cons.mp hw with rfl | hw
        · exact hle
        · exact hb w hw
      · rename_i hlt
        cases h
        refine ⟨rfl, by simp, ?_⟩
        intro w hw
        rcases List.mem_append.mp hw with hw | hw
        · have := hb w hw
          omega
        · rcases List.mem_cons.mp hw with rfl | hw
          · omega
          · have := ha w hw
            omega

theorem length_splitLowest? {xs before behind : List Link} {y : Link}
    (h : splitLowest? xs = some (before, y, behind)) :
    before.length < xs.length ∧ behind.length < xs.length := by
  obtain ⟨rfl, -, -⟩ := splitLowest?_sound h
  simp only [List.length_append, List.length_cons]
  omega

/-- The split is the only one with operators of no lower rank before it and higher ranks behind. -/
theorem splitLowest?_eq_some_iff {xs before behind : List Link} {y : Link} :
    splitLowest? xs = some (before, y, behind) ↔
      xs = before ++ y :: behind ∧ (∀ x ∈ before, y.1.kind.rank ≤ x.1.kind.rank) ∧
        ∀ x ∈ behind, y.1.kind.rank < x.1.kind.rank := by
  refine ⟨splitLowest?_sound, ?_⟩
  rintro ⟨rfl, hb, ha⟩
  induction before with
  | nil =>
    simp only [List.nil_append, splitLowest?]
    split
    · rename_i hn
      rw [splitLowest?_eq_none_iff.mp hn]
    · rename_i b z a hs
      obtain ⟨rfl, -, -⟩ := splitLowest?_sound hs
      have := ha z (by simp)
      rw [if_neg (by omega)]
  | cons x before ih =>
    simp only [List.cons_append, splitLowest?, ih fun w hw => hb w (List.mem_cons_of_mem _ hw)]
    rw [if_pos (hb x (by simp))]

structure Run where
  first : Operand
  rest : List Link
deriving DecidableEq, Repr

namespace Run

def tokens (w : Run) : List Token :=
  w.first.tokens ++ w.rest.flatMap fun x => x.1 :: x.2.tokens

def WellFormed (w : Run) : Prop :=
  w.first.WellFormed ∧ ∀ x ∈ w.rest, x.1.kind.isInfix ∧ x.2.WellFormed

/-- Every infix operator binds tighter than the given rank. -/
def Above (rank : Int) (w : Run) : Prop := ∀ x ∈ w.rest, rank < x.1.kind.rank

/-- The last operator of the lowest rank stands at the root. -/
def tree (w : Run) : Node :=
  match _h : splitLowest? w.rest with
  | none => w.first.tree
  | some (before, (operator, operand), behind) =>
    .infixOp operator operator.literal (some (tree ⟨w.first, before⟩))
      (some (tree ⟨operand, behind⟩))
termination_by w.rest.length
decreasing_by
  · exact (length_splitLowest? _h).1
  · exact (length_splitLowest? _h).2

theorem tree_single (o : Operand) : tree ⟨o, []⟩ = o.tree := by
  rw [tree]
  rfl

theorem tree_split {o operand : Operand} {before behind : List Link} {operator : Token}
    (hb : ∀ x ∈ before, operator.kind.rank ≤ x.1.kind.rank)
    (ha : ∀ x ∈ behind, operator.kind.rank < x.1.kind.rank) :
    tree ⟨o, before ++ (operator, operand) :: behind⟩ =
      .infixOp operator operator.literal (some (tree ⟨o, before⟩))
        (some (tree ⟨operand, behind⟩)) := by
  have h : splitLowest? (before ++ (operator, operand) :: behind) =
      some (before, (operator, operand), behind) :=
    splitLowest?_eq_some_iff.mpr ⟨rfl, hb, ha⟩
  rw [tree]
  split
  · rename_i hn
    simp only at hn
    rw [h] at hn
    cases hn
  · rename_i hs
    simp only at hs
    rw [h] at hs
    cases hs
    rfl

/-- Induction along the tree: a run is an operand, or it is split at the last operator of the lowest
rank. -/
theorem split_induct {motive : Run → Prop} (single : ∀ o, motive ⟨o, []⟩)
    (split : ∀ o before operator operand behind,
      (∀ x ∈ before, operator.kind.rank ≤ x.1.kind.rank) →
      (∀ x ∈ behind, operator.kind.rank < x.1.kind.rank) →
      motive ⟨o, before⟩ → motive ⟨operand, behind⟩ →
      motive ⟨o, before ++ (operator, operand) :: behind⟩)
    (w : Run) : motive w := by
  induction h : w.rest.length using Nat.strongRecOn generalizing w with
  | ind n ih =>
    obtain ⟨o, rest⟩ := w
    subst h
    cases hsplit : splitLowest? rest with
    | none =>
      obtain rfl := splitLowest?_eq_none_iff.mp hsplit
      exact single o
    | some s =>
      obtain ⟨before, ⟨operator, operand⟩, behind⟩ := s
      obtain ⟨hbefore, hbehind⟩ := length_splitLowest? hsplit
      obtain ⟨rfl, hb, ha⟩ := splitLowest?_sound hsplit
      exact split o before operator operand behind hb ha (ih _ hbefore ⟨o, before⟩ rfl)
        (ih _ hbehind ⟨operand, behind⟩ rfl)

end Run

end MonkeySyntax.Grammar
