import MonkeySyntax.Ast.Basic

/-!
# Source-like text of a tree

Operators are written with parentheses around every application, statements with their closing
semicolon, and a missing child as nothing. A run of unary operators is written by a loop: first the
openings, then the operand, then as many closing parentheses. The main statement is that the loop
writes each operator around the text of its own operand.
-/

namespace MonkeySyntax

namespace Node

mutual

def text : Node → String
  | bare _ t => t.literal
  | identifier _ name => name
  | integer t _ => t.literal
  | prefixOp _ operator right => runText ("(" ++ operator) 1 right
  | infixOp _ operator left right =>
    "(" ++ childText left ++ " " ++ operator ++ " " ++ childText right ++ ")"
  | letStmt t name value => t.literal ++ " " ++ name.text ++ " = " ++ childText value ++ ";"
  | returnStmt t value => t.literal ++ " " ++ childText value ++ ";"
  | exprStmt _ expression => childText expression
  | program statements => textAll statements
termination_by structural n => n

/-- Goes down a run of unary operators with what was written so far and the number of parentheses
that are still open. -/
def runText (opening : String) (unclosed : Nat) : Option Node → String
  | some (prefixOp _ operator right) => runText (opening ++ "(" ++ operator) (unclosed + 1) right
  | some n => opening ++ n.text ++ String.ofList (List.replicate unclosed ')')
  | none => opening ++ String.ofList (List.replicate unclosed ')')
termination_by structural o => o

def childText : Option Node → String
  | some n => n.text
  | none => ""
termination_by structural o => o

def textAll : List Node → String
  | [] => ""
  | n :: ns => n.text ++ textAll ns
termination_by structural ns => ns

end

mutual

/-- The short form for display: the class and the quoted text, a program by its statements. -/
def display : Node → String
  | program statements => "Program(statements=[" ++ ", ".intercalate (displayAll statements) ++ "])"
  | n => n.className ++ "(" ++ Text.quoted n.text ++ ")"
termination_by structural n => n

def displayAll : List Node → List String
  | [] => []
  | n :: ns => n.display :: displayAll ns
termination_by structural ns => ns

end

/-! ## The loop over a run -/

@[simp] theorem childText_none : childText none = "" := rfl

@[simp] theorem childText_some (n : Node) : childText (some n) = n.text := rfl

theorem runText_eq (opening : String) (unclosed : Nat) (o : Option Node) :
    runText opening unclosed o =
      opening ++ childText o ++ String.ofList (List.replicate unclosed ')') := by
  match o with
  | none => simp [runText]
  | some (prefixOp t operator right) =>
    simp only [runText, childText_some, text]
    rw [runText_eq, runText_eq]
    apply String.toList_inj.mp
    simp [List.replicate_succ]
  | some (bare ..) | some (identifier ..) | some (integer ..) | some (infixOp ..)
  | some (letStmt ..) | some (returnStmt ..) | some (exprStmt ..) | some (program ..) => rfl

/-- A unary operator stands in parentheses before the text of its operand. -/
theorem text_prefixOp (t : Token) (operator : String) (right : Option Node) :
    (prefixOp t operator right).text = "(" ++ operator ++ childText right ++ ")" := by
  rw [text, runText_eq]
  rfl

end Node

end MonkeySyntax
