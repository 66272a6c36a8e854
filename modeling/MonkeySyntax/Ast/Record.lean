import MonkeySyntax.Ast.Basic
import MonkeySyntax.Json.Basic

/-!
# Trees as records

A tree is recorded as a JSON object: its kind, the literal of its token and the fields of that kind,
with a missing child as null. Positions and kinds of tokens are left out, and so two trees count as
equal when they are of one class at the root and have the same record. A run of unary operators is
recorded by a loop, from the inside out; the main statement is that each operator holds the record
of its own operand.
-/

namespace MonkeySyntax

namespace Node

open Json (Value)

/-- The record of a node of the given kind: kind and token literal come first. -/
def recordOf (kind : String) (t : Token) (fields : List (String × Value)) : Value :=
  .object (("kind", .string kind) :: ("token", .string t.literal) :: fields)

def prefixRecord (t : Token) (operator : String) (right : Value) : Value :=
  recordOf "prefix" t [("operator", .string operator), ("right", right)]

mutual

def toRecord : Node → Value
  | bare _ t => recordOf "node" t []
  | identifier t name => recordOf "identifier" t [("value", .string name)]
  | integer t value => recordOf "integer" t [("value", .int value)]
  | prefixOp t operator right => runRecord [(t, operator)] right
  | infixOp t operator left right =>
    recordOf "infix" t
      [("operator", .string operator), ("left", childRecord left), ("right", childRecord right)]
  | letStmt t name value =>
    recordOf "let" t [("name", name.toRecord), ("value", childRecord value)]
  | returnStmt t value => recordOf "return" t [("return_value", childRecord value)]
  | exprStmt t expression => recordOf "expression" t [("expression", childRecord expression)]
  | program statements =>
    recordOf "program" (program statements).token [("statements", .array (recordAll statements))]
termination_by structural n => n

/-- Goes down a run of unary operators, those passed so far innermost first, and then records them
around the operand. -/
def runRecord (passed : List (Token × String)) : Option Node → Value
  | some (prefixOp t operator right) => runRecord ((t, operator) :: passed) right
  | some n => passed.foldl (fun v p => prefixRecord p.1 p.2 v) n.toRecord
  | none => passed.foldl (fun v p => prefixRecord p.1 p.2 v) .null
termination_by structural o => o

def childRecord : Option Node → Value
  | some n => n.toRecord
  | none => .null
termination_by structural o => o

def recordAll : List Node → List Value
  | [] => []
  | n :: ns => n.toRecord :: recordAll ns
termination_by structural ns => ns

end

/-- Equality of trees: one class at the root, and equal records. -/
def sameTree (a b : Node) : Bool :=
  a.className == b.className && a.toRecord == b.toRecord

/-! ## The loop over a run -/

@[simp] theorem childRecord_some (n : Node) : childRecord (some n) = n.toRecord := rfl

theorem runRecord_eq (passed : List (Token × String)) (o : Option Node) :
    runRecord passed o = passed.foldl (fun v p => prefixRecord p.1 p.2 v) (childRecord o) := by
  match o with
  | none => rfl
  | some (prefixOp t operator right) =>
    simp only [runRecord, childRecord_some, toRecord]
    rw [runRecord_eq, runRecord_eq]
    rfl
  | some (bare ..) | some (identifier ..) | some (integer ..) | some (infixOp ..)
  | some (letStmt ..) | some (returnStmt ..) | some (exprStmt ..) | some (program ..) => rfl

/-- A unary operator is recorded with the record of its operand. -/
theorem toRecord_prefixOp (t : Token) (operator : String) (right : Option Node) :
    (prefixOp t operator right).toRecord = prefixRecord t operator (childRecord right) := by
  rw [toRecord, runRecord_eq]
  rfl

theorem sameTree_iff {a b : Node} :
    a.sameTree b ↔ a.className = b.className ∧ a.toRecord = b.toRecord := by
  simp [sameTree]

end Node

end MonkeySyntax
