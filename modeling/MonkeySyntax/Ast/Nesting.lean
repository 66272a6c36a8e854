import MonkeySyntax.Ast.Record

/-!
# Text and record by recursion alone

The text and the record of a tree as its grammar has them: what a node is made of is written or
recorded first, and then the node around it. A unary operator is a node like any other, so a run of
operators is read one inside the other and never gathered.
-/

namespace MonkeySyntax.Node

open Json (Value)

mutual

def nestedText : Node → String
  | bare _ t => t.literal
  | identifier _ name => name
  | integer t _ => t.literal
  | prefixOp _ operator right => "(" ++ operator ++ nestedChildText right ++ ")"
  | infixOp _ operator left right =>
    "(" ++ nestedChildText left ++ " " ++ operator ++ " " ++ nestedChildText right ++ ")"
  | letStmt t name value =>
    t.literal ++ " " ++ name.nestedText ++ " = " ++ nestedChildText value ++ ";"
  | returnStmt t value => t.literal ++ " " ++ nestedChildText value ++ ";"
  | exprStmt _ expression => nestedChildText expression
  | program statements => nestedTextAll statements
termination_by structural n => n

def nestedChildText : Option Node → String
  | some n => n.nestedText
  | none => ""
termination_by structural o => o

def nestedTextAll : List Node → String
  | [] => ""
  | n :: ns => n.nestedText ++ nestedTextAll ns
termination_by structural ns => ns

end

mutual

def nestedRecord : Node → Value
  | bare _ t => recordOf "node" t []
  | identifier t name => recordOf "identifier" t [("value", .string name)]
  | integer t value => recordOf "integer" t [("value", .int value)]
  | prefixOp t operator right =>
    recordOf "prefix" t [("operator", .string operator), ("right", nestedChildRecord right)]
  | infixOp t operator left right =>
    recordOf "infix" t [("operator", .string operator), ("left", nestedChildRecord left),
      ("right", nestedChildRecord right)]
  | letStmt t name value =>
    recordOf "let" t [("name", name.nestedRecord), ("value", nestedChildRecord value)]
  | returnStmt t value => recordOf "return" t [("return_value", nestedChildRecord value)]
  | exprStmt t expression =>
    recordOf "expression" t [("expression", nestedChildRecord expression)]
  | program statements =>
    recordOf "program" (program statements).token
      [("statements", .array (nestedRecordAll statements))]
termination_by structural n => n

def nestedChildRecord : Option Node → Value
  | some n => n.nestedRecord
  | none => .null
termination_by structural o => o

def nestedRecordAll : List Node → List Value
  | [] => []
  | n :: ns => n.nestedRecord :: nestedRecordAll ns
termination_by structural ns => ns

end

end MonkeySyntax.Node
