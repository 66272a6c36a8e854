import Mathlib.Algebra.Group.Int.Defs
import MonkeySyntax.Ast.Basic
import MonkeySyntax.Numeral
import MonkeySyntax.Token.Kind

/-!
# Consistent trees

What a node owes to its own token and to its children: the token is of the kind that the node stands
for and has its literal, and operators bind as their ranks say. An operator may hold one that binds
less tightly on its left, though only if the right operand of that one is missing.
-/

namespace MonkeySyntax

namespace Node

def children : Node → List Node
  | bare .. | identifier .. | integer .. => []
  | prefixOp _ _ right => right.toList
  | infixOp _ _ left right => left.toList ++ right.toList
  | letStmt _ name value => name :: value.toList
  | returnStmt _ value => value.toList
  | exprStmt _ expression => expression.toList
  | program statements => statements

/-- It holds of the tree and of every tree below it. -/
inductive Everywhere (P : Node → Prop) : Node → Prop
  | intro {n : Node} : P n → (∀ m ∈ n.children, Everywhere P m) → Everywhere P n

def IsOperand : Node → Prop
  | identifier .. | integer .. | prefixOp .. => True
  | _ => False

def IsExpression : Node → Prop
  | infixOp .. => True
  | n => n.IsOperand

def IsStatement : Node → Prop
  | letStmt .. | returnStmt .. | exprStmt .. => True
  | _ => False

/-- The expression may stand to the left of the operator. -/
def FitsLeft (operator : Token) : Node → Prop
  | infixOp t _ _ right => operator.kind.rank ≤ t.kind.rank ∨ right = none
  | n => n.IsOperand

/-- The expression may stand to the right of the operator. -/
def FitsRight (operator : Token) : Node → Prop
  | infixOp t _ _ _ => operator.kind.rank < t.kind.rank
  | n => n.IsOperand

/-- The token of the leftmost operand, if it is there. -/
def leftmost? : Node → Option Token
  | infixOp _ _ none _ => none
  | infixOp _ _ (some left) _ => left.leftmost?
  | n => some n.token

/-- The node agrees with its token and with its children. -/
def Consistent : Node → Prop
  | bare .. => False
  | identifier t name => t.kind = .ident ∧ name = t.literal
  | integer t value =>
    t.kind = .int ∧ readInt64 t.literal = .ok (some value) ∧ -2 ^ 63 ≤ value ∧ value ≤ 2 ^ 63 - 1
  | prefixOp t operator right =>
    (t.kind = .bang ∨ t.kind = .minus) ∧ operator = t.literal ∧ ∀ n ∈ right, n.IsOperand
  | infixOp t operator left right =>
    t.kind ∈ [.plus, .minus, .asterisk, .slash, .lt, .gt, .eq, .notEq] ∧ operator = t.literal ∧
      (∀ n ∈ left, n.FitsLeft t) ∧ ∀ n ∈ right, n.FitsRight t
  | letStmt t name value =>
    t.kind = .letKw ∧ (∃ u, u.kind = .ident ∧ name = identifier u u.literal) ∧
      ∀ n ∈ value, n.IsExpression
  | returnStmt t value => t.kind = .returnKw ∧ ∀ n ∈ value, n.IsExpression
  | exprStmt t expression =>
    t.kind ≠ .letKw ∧ t.kind ≠ .returnKw ∧ t.kind ≠ .eof ∧
      ∀ n ∈ expression, n.IsExpression ∧ ∀ u ∈ n.leftmost?, t = u
  | program statements => ∀ n ∈ statements, n.IsStatement

variable {n : Node} {t : Token}

theorem IsOperand.isExpression (h : n.IsOperand) : n.IsExpression := by
  cases n <;> first | exact h | trivial

theorem IsOperand.fitsLeft (h : n.IsOperand) : n.FitsLeft t := by
  cases n <;> first | exact h | cases h

theorem IsOperand.fitsRight (h : n.IsOperand) : n.FitsRight t := by
  cases n <;> first | exact h | cases h

theorem leftmost?_infixOp (t : Token) (operator : String) (left right : Option Node) :
    (infixOp t operator left right).leftmost? = left.bind leftmost? := by
  cases left <;> rfl

end Node

end MonkeySyntax
