import MonkeySyntax.Ast.Printer
import MonkeySyntax.Ast.Record
import MonkeySyntax.Json.Printer

/-!
# Rendering a tree

A tree is shown either as source-like text or as the indented JSON of its record. To go through a
tree takes calls inside calls, and only so many may be open at once: a tree that is nested too deep
cannot be rendered. A run of unary operators is gathered by a loop and so takes no more calls than
one of them; but in the JSON of its record each of them is an object inside the one before.
-/

namespace MonkeySyntax

inductive Format where
  | text
  | json
deriving DecidableEq, Repr

namespace Format

/-- Any name but that of the JSON format stands for text. -/
def ofName (s : String) : Format := if s = "json" then json else text

end Format

/-- What is at work when there is no room for one more call. -/
inductive Overrun where
  /-- The tree is gone through. -/
  | tree
  /-- Its record is printed. -/
  | json
deriving DecidableEq, Repr

namespace Overrun

/-- What is said of an overrun. The words that some of the calls in a tree add to it are left
out. -/
def message : Overrun → String
  | tree => "maximum recursion depth exceeded"
  | json => "maximum recursion depth exceeded while encoding a JSON object"

end Overrun

namespace Node

/-- The rendering of a tree for which there is room enough. -/
def render (format : Format) (n : Node) : String :=
  match format with
  | .text => n.text
  | .json => n.toRecord.print .indented

end Node

/-! ## Open calls -/

/-- The calls that a way through a tree takes, library functions included: those that lead from a
node to what is below it, and those that a node makes for itself. The count is that of functions
which have been at work before; their very first calls may take one more. -/
structure Walk where
  /-- To a child, where the first of them sees whether it is missing. -/
  toChild : Nat
  /-- From a let statement to its name. -/
  toName : Nat
  /-- From a program to a statement. -/
  toStatement : Nat
  bare : Nat
  identifier : Nat
  integer : Nat
  other : Nat

namespace Walk

/-- A child gives its text when it is asked for it. The texts of statements are joined as they come,
and the literal of a token is asked for by one more call. -/
def text : Walk where
  toChild := 2
  toName := 2
  toStatement := 3
  bare := 1
  identifier := 0
  integer := 1
  other := 1

/-- What all records have in common is made by two calls, and by one where there is no more. -/
def record : Walk where
  toChild := 1
  toName := 0
  toStatement := 1
  bare := 1
  identifier := 2
  integer := 2
  other := 2

end Walk

namespace Node

mutual

/-- The most calls that are open at once on the way through a tree, the first included. -/
def openCalls (w : Walk) : Node → Nat
  | bare .. => 1 + w.bare
  | identifier .. => 1 + w.identifier
  | integer .. => 1 + w.integer
  | prefixOp _ _ right => runOpenCalls w right
  | infixOp _ _ left right =>
    1 + max w.other (max (childOpenCalls w left) (childOpenCalls w right))
  | letStmt _ name value =>
    1 + max w.other (max (w.toName + name.openCalls w) (childOpenCalls w value))
  | returnStmt _ child | exprStmt _ child => 1 + max w.other (childOpenCalls w child)
  | program statements => 1 + max 2 (openCallsAll w statements)
termination_by structural n => n

/-- A run of operators takes what its operand takes, and two calls at the least. -/
def runOpenCalls (w : Walk) : Option Node → Nat
  | some (prefixOp _ _ right) => runOpenCalls w right
  | some n => 1 + max 2 (w.toChild + n.openCalls w)
  | none => 3
termination_by structural o => o

def childOpenCalls (w : Walk) : Option Node → Nat
  | some n => w.toChild + n.openCalls w
  | none => 1
termination_by structural o => o

def openCallsAll (w : Walk) : List Node → Nat
  | [] => 0
  | n :: ns => max (w.toStatement + n.openCalls w) (openCallsAll w ns)
termination_by structural ns => ns

end

/-- Printing takes four calls, and one for each array or object inside another. -/
def printCalls (n : Node) : Nat := 4 + n.toRecord.nesting

/-! ## Room for calls -/

/-- What overruns the room when the text of a tree is asked for, unless it suffices. -/
def textOverrun? (room : Nat) (n : Node) : Option Overrun :=
  if 1 + n.openCalls .text ≤ room then none else some .tree

/-- What overruns the room when the record of a tree is made and printed, unless it suffices. -/
def recordOverrun? (room : Nat) (n : Node) : Option Overrun :=
  if room < n.openCalls .record then some .tree
  else if room < n.printCalls then some .json
  else none

def overrun? (room : Nat) (format : Format) (n : Node) : Option Overrun :=
  match format with
  | .text => n.textOverrun? room
  | .json => n.recordOverrun? room

/-- The rendering, where there is room for the calls that it takes. -/
def render? (room : Nat) (format : Format) (n : Node) : Except Overrun String :=
  match n.overrun? room format with
  | some o => .error o
  | none => .ok (n.render format)

variable {room : Nat} {format : Format} {n : Node}

theorem render?_eq_error_iff {o : Overrun} :
    n.render? room format = .error o ↔ n.overrun? room format = some o := by
  unfold render?
  cases n.overrun? room format <;> simp

end Node

end MonkeySyntax
