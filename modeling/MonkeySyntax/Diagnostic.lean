import MonkeySyntax.Text.Quoted
import MonkeySyntax.Token.Kind

/-!
# Diagnostics and the log

What the parser records about malformed input, and the report that a run with diagnostics ends in.
Each cause has one wording. A log notes what a run comes across for a reader who follows it:
characters outside the language, diagnostics with the position of the current token, and a summary
of each pass.
-/

namespace MonkeySyntax

inductive Diagnostic where
  /-- A let statement lacks the token that its form demands next. -/
  | expectedNext (wanted got : TokenKind)
  /-- The kind of the token at the start of an operand starts none. -/
  | noOperand (kind : TokenKind)
  /-- An integer token is malformed or out of range. -/
  | badInteger (literal : String)
  /-- A remark of the caller's own. -/
  | remark (text : String)
deriving DecidableEq, Repr

namespace Diagnostic

def message : Diagnostic → String
  | expectedNext wanted got =>
    s!"expected next token to be {wanted.label}, got {got.label} instead"
  | noOperand kind => s!"no prefix parse function for {kind.label} found"
  | badInteger literal => s!"could not parse \"{literal}\" as integer"
  | remark text => text

end Diagnostic

/-- The report of a run that left diagnostics behind, in the order in which they were recorded. -/
structure ParseReport where
  diagnostics : List Diagnostic
deriving DecidableEq, Repr

namespace ParseReport

def messages (r : ParseReport) : List String := r.diagnostics.map Diagnostic.message

def message (r : ParseReport) : String :=
  s!"parser has {r.diagnostics.length} errors: " ++ "; ".intercalate r.messages

end ParseReport

/-! ## Log entries -/

inductive LogEntry where
  | illegalCharacter (literal : String) (line col : Int)
  | diagnosed (diagnostic : Diagnostic) (line col : Int)
  | finished (statements newDiagnostics : Nat)
  | reading (path : String)
deriving DecidableEq, Repr

namespace LogEntry

/-- The channel by which a reader of the log tells the sources of its entries apart. -/
def channel : LogEntry → String
  | illegalCharacter .. => "monkey.monkey_lexer"
  | diagnosed .. | finished .. => "monkey.monkey_parser"
  | reading .. => "monkey.monkey_cli"

def message : LogEntry → String
  | illegalCharacter literal line col =>
    s!"illegal character {Text.quoted literal} at line {line}, col {col}"
  | diagnosed d line col => s!"parse error at line {line}, col {col}: {d.message}"
  | finished statements errors => s!"parsed {statements} statements with {errors} new errors"
  | reading path => s!"reading {path}"

def line (e : LogEntry) : String := s!"DEBUG {e.channel}: {e.message}"

def diagnostic? : LogEntry → Option Diagnostic
  | diagnosed d _ _ => some d
  | _ => none

end LogEntry

end MonkeySyntax
