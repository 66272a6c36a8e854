import MonkeySyntax.Ast.Basic

/-!
# Tokens of a tree

The tokens that a tree keeps, in the order in which they stand in a source, and what it lacks: its
missing children. Tokens can be replaced throughout a tree; two trees that agree after a replacement
differ only in what it wipes out.
-/

namespace MonkeySyntax

namespace Node

mutual

/-- Each operator stands between its operands, and an expression statement adds no token. -/
def tokens : Node → List Token
  | bare _ t | identifier t _ | integer t _ => [t]
  | prefixOp t _ right => t :: childTokens right
  | infixOp t _ left right => childTokens left ++ t :: childTokens right
  | letStmt t name value => t :: (name.tokens ++ childTokens value)
  | returnStmt t value => t :: childTokens value
  | exprStmt _ expression => childTokens expression
  | program statements => tokensAll statements
termination_by structural n => n

def childTokens : Option Node → List Token
  | some n => n.tokens
  | none => []
termination_by structural o => o

def tokensAll : List Node → List Token
  | [] => []
  | n :: ns => n.tokens ++ tokensAll ns
termination_by structural ns => ns

end

mutual

/-- How many children are missing. -/
def holes : Node → Nat
  | bare .. | identifier .. | integer .. => 0
  | prefixOp _ _ right => childHoles right
  | infixOp _ _ left right => childHoles left + childHoles right
  | letStmt _ name value => name.holes + childHoles value
  | returnStmt _ value => childHoles value
  | exprStmt _ expression => childHoles expression
  | program statements => holesAll statements
termination_by structural n => n

/-- A missing child is one hole. -/
def childHoles : Option Node → Nat
  | some n => n.holes
  | none => 1
termination_by structural o => o

def holesAll : List Node → Nat
  | [] => 0
  | n :: ns => n.holes + holesAll ns
termination_by structural ns => ns

end

mutual

/-- Replaces every token. -/
def mapTokens (f : Token → Token) : Node → Node
  | bare c t => bare c (f t)
  | identifier t name => identifier (f t) name
  | integer t value => integer (f t) value
  | prefixOp t operator right => prefixOp (f t) operator (mapChild f right)
  | infixOp t operator left right => infixOp (f t) operator (mapChild f left) (mapChild f right)
  | letStmt t name value => letStmt (f t) (name.mapTokens f) (mapChild f value)
  | returnStmt t value => returnStmt (f t) (mapChild f value)
  | exprStmt t expression => exprStmt (f t) (mapChild f expression)
  | program statements => program (mapAll f statements)
termination_by structural n => n

def mapChild (f : Token → Token) : Option Node → Option Node
  | some n => some (n.mapTokens f)
  | none => none
termination_by structural o => o

def mapAll (f : Token → Token) : List Node → List Node
  | [] => []
  | n :: ns => n.mapTokens f :: mapAll f ns
termination_by structural ns => ns

end

theorem mapAll_eq_map (f : Token → Token) (ns : List Node) :
    mapAll f ns = ns.map (mapTokens f) := by
  induction ns with
  | nil => rfl
  | cons n ns ih => simp [mapAll, ih]

end Node

end MonkeySyntax
