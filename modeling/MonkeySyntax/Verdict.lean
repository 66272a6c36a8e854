import MonkeySyntax.Lexer
import MonkeySyntax.Parser.Statement

/-!
# Verdicts on source texts

A source text is accepted with its program, or rejected: by a fault that breaks the parse off, or by
the report of the diagnostics that the parse left behind.
-/

namespace MonkeySyntax

inductive Rejection where
  | fault (f : Fault)
  | report (r : ParseReport)
deriving DecidableEq, Repr

namespace Rejection

def message : Rejection → String
  | fault f => f.message
  | report r => r.message

end Rejection

namespace Parser

variable {σ : Type} [TokenSource σ]

/-- The program of a finished parse, unless the parse has to be rejected. -/
def verdict (s : Step σ Node) : Except Rejection Node :=
  match s with
  | (.error f, _) => .error (.fault f)
  | (.ok program, p) =>
    match p.report? with
    | some r => .error (.report r)
    | none => .ok program

end Parser

/-- The verdict on a source text, and the log of the parse. -/
def check (source : String) : Except Rejection Node × List LogEntry :=
  let s := Parser.parse (Lexer.ofString source)
  (Parser.verdict s, s.2.log)

end MonkeySyntax
