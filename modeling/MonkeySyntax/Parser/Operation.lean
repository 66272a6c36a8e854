import MonkeySyntax.Parser.Statement

/-!
# Operations on a parser

Everything that a caller can make a parser do, as a value. Operations may come in any order and at
any current token; each leaves the parser in some state, also where it ends in a fault.
-/

namespace MonkeySyntax.Parser

inductive Operation where
  | advance
  | expect (kind : TokenKind)
  /-- Records that the next token is not of the wanted kind. -/
  | missNext (wanted : TokenKind)
  | missOperand (kind : TokenKind)
  | remark (text : String)
  | identifier
  | integer
  | unaryExpression
  | infixExpression (left : Option Node)
  | expression (rank : Int)
  | letStatement
  | returnStatement
  | expressionStatement
  | statement
  | program

/-- What an operation answers, besides the state it leaves behind. -/
inductive Answer where
  | done
  | flag (b : Bool)
  | node (n : Option Node)

variable {σ : Type} [TokenSource σ]

def Operation.run (o : Operation) (p : Parser σ) : Step σ Answer :=
  match o with
  | .advance => (.ok .done, p.advance)
  | .expect kind => (.ok (.flag (p.expect kind).1), (p.expect kind).2)
  | .missNext wanted => (.ok .done, p.diagnose (.expectedNext wanted p.peek.kind))
  | .missOperand kind => (.ok .done, p.diagnose (.noOperand kind))
  | .remark text => (.ok .done, p.diagnose (.remark text))
  | .identifier => (.ok (.node (some p.identifier)), p)
  | .integer => p.integer.map .node
  | .unaryExpression => p.unaryExpression.map fun n => .node (some n)
  | .infixExpression left => (p.infixExpression left).map fun n => .node (some n)
  | .expression rank => (p.expression rank).map .node
  | .letStatement => p.letStatement.map .node
  | .returnStatement => p.returnStatement.map fun n => .node (some n)
  | .expressionStatement => p.expressionStatement.map fun n => .node (some n)
  | .statement => p.statement.map .node
  | .program => p.program.map fun n => .node (some n)

/-- The state after operations in their order, whatever they answer. -/
def after (p : Parser σ) (os : List Operation) : Parser σ :=
  os.foldl (fun p o => (o.run p).2) p

end MonkeySyntax.Parser
