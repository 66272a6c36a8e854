import MonkeySyntax.Token.Basic

/-!
# Syntax trees

A tree is built from identifiers, integers, unary and binary operators, statements and programs.
Every node but a program keeps the token that introduced it. A child that could not be parsed is
missing. Any node may stand in any place; which trees the parser builds is another matter.
-/

namespace MonkeySyntax

/-- What a node without content of its own was meant to be. -/
inductive Category where
  | node | statement | expression
deriving DecidableEq, Repr

inductive Node where
  | bare (category : Category) (token : Token)
  | identifier (token : Token) (name : String)
  | integer (token : Token) (value : Int)
  | prefixOp (token : Token) (operator : String) (right : Option Node)
  | infixOp (token : Token) (operator : String) (left right : Option Node)
  | letStmt (token : Token) (name : Node) (value : Option Node)
  | returnStmt (token : Token) (value : Option Node)
  | exprStmt (token : Token) (expression : Option Node)
  | program (statements : List Node)
deriving Repr

namespace Node

/-- The token that introduced the node: a program's is that of its first statement. -/
def token : Node → Token
  | bare _ t | identifier t _ | integer t _ | prefixOp t _ _ | infixOp t _ _ _
  | letStmt t _ _ | returnStmt t _ | exprStmt t _ => t
  | program [] => .endOfInput
  | program (s :: _) => s.token

def className : Node → String
  | bare .node _ => "Node"
  | bare .statement _ => "Statement"
  | bare .expression _ => "Expression"
  | identifier .. => "Identifier"
  | integer .. => "IntegerLiteral"
  | prefixOp .. => "PrefixExpression"
  | infixOp .. => "InfixExpression"
  | letStmt .. => "LetStatement"
  | returnStmt .. => "ReturnStatement"
  | exprStmt .. => "ExpressionStatement"
  | program .. => "Program"

/-- The run of unary operators at the top of a tree, outermost first, and what they stand before. -/
def chain : Node → List (Token × String) × Option Node
  | prefixOp t operator none => ([(t, operator)], none)
  | prefixOp t operator (some right) =>
    let (run, operand) := right.chain
    ((t, operator) :: run, operand)
  | n => ([], some n)

/-- Puts unary operators, outermost first, before an operand. -/
def wrap (run : List (Token × String)) (operand : Option Node) : Option Node :=
  run.foldr (fun (t, operator) right => some (prefixOp t operator right)) operand

/-- Structural induction in which the children of a node are its members. -/
@[elab_as_elim, induction_eliminator]
theorem induct {motive : Node → Prop}
    (bare : ∀ c t, motive (bare c t))
    (identifier : ∀ t s, motive (identifier t s))
    (integer : ∀ t i, motive (integer t i))
    (prefixOp : ∀ t o right, (∀ n ∈ right, motive n) → motive (prefixOp t o right))
    (infixOp : ∀ t o left right, (∀ n ∈ left, motive n) → (∀ n ∈ right, motive n) →
      motive (infixOp t o left right))
    (letStmt : ∀ t name value, motive name → (∀ n ∈ value, motive n) →
      motive (letStmt t name value))
    (returnStmt : ∀ t value, (∀ n ∈ value, motive n) → motive (returnStmt t value))
    (exprStmt : ∀ t expression, (∀ n ∈ expression, motive n) → motive (exprStmt t expression))
    (program : ∀ statements, (∀ n ∈ statements, motive n) → motive (program statements))
    (n : Node) : motive n :=
  @Node.rec motive (fun o => ∀ n ∈ o, motive n) (fun l => ∀ n ∈ l, motive n)
    bare identifier integer prefixOp infixOp letStmt returnStmt exprStmt program
    (by simp) (by simp) (by simp) (by simpa using fun n ns h h' => ⟨h, h'⟩) n

end Node

end MonkeySyntax
