import MonkeySyntax.Ast.Render
import MonkeySyntax.Text.Input
import MonkeySyntax.Verdict

/-!
# Interactive sessions

A session answers one line of input after the other. Two words end it, one word switches the verbose
mode, blank lines and comments are passed over, and any other line is parsed and shown. What a line
is answered with depends on that line and the mode alone; a session is the fold of its lines. A line
that breaks down, such as one whose program is nested too deep to be shown, is answered with that.
-/

namespace MonkeySyntax

namespace Session

/-- What comes in at a prompt: a line, or one of the two ways to break off. -/
inductive Input where
  | line (text : String)
  | endOfInput
  | interrupt
deriving DecidableEq, Repr

/-- The answer to an input: what is printed and logged, the mode from now on, and whether the
session is over. -/
structure Reply where
  output : String
  log : List LogEntry
  verbose : Bool
  ended : Bool
deriving DecidableEq, Repr

def banner : String := "Monkey REPL. Type 'exit' or 'quit' to leave.\n"

def prompt : String := ">> "

def farewell : String := "Exiting Monkey REPL.\n"

/-- Why a line is not answered to the end: its parse is broken off, or what is to be shown of it is
nested too deep. -/
inductive Breakdown where
  | fault (f : Fault)
  | overrun (o : Overrun)
deriving DecidableEq, Repr

/-- The line that a traceback ends with. -/
def Breakdown.lastLine : Breakdown → String
  | fault (.overlong n) => "ValueError: " ++ n.message
  | fault .missingOperand => "AssertionError"
  | overrun o => "RecursionError: " ++ o.message

/-- How a breakdown is shown: by the two ends of its traceback. The lines between them name places
in the program and are left out. -/
def breakdownBlock (b : Breakdown) : String :=
  "[error] >>>\nTraceback (most recent call last):\n" ++ b.lastLine ++ "\n\n"

/-- Messages, each on an indented line of its own. -/
def indentedLines (messages : List String) : String :=
  String.join (messages.map fun m => "\t" ++ m ++ "\n")

/-- How a report is shown. -/
def reportBlock (r : ParseReport) : String :=
  "[error] >>> parser errors:\n" ++ indentedLines r.messages

/-- What is printed for an accepted program; the verbose mode adds its record. -/
def shown (verbose : Bool) (program : Node) : String :=
  program.text ++ "\n" ++
    (if verbose then "[ast] >>> " ++ program.toRecord.print .compact ++ "\n" else "")

/-- What is printed for an accepted program, and what breaks that off. The text of a program stands
there before its record is made. -/
def shownWithin (room : Nat) (verbose : Bool) (program : Node) : String × Option Breakdown :=
  match program.textOverrun? room with
  | some o => ("", some (.overrun o))
  | none =>
    match if verbose then program.recordOverrun? room else none with
    | some o => (shown false program, some (.overrun o))
    | none => (shown verbose program, none)

/-- What is printed for a source text, and what breaks that off. -/
def handle (room : Nat) (verbose : Bool) : Except Rejection Node → String × Option Breakdown
  | .error (.report r) => (reportBlock r, none)
  | .error (.fault f) => ("", some (.fault f))
  | .ok program => shownWithin room verbose program

def answer (room : Nat) (verbose : Bool) (verdict : Except Rejection Node) : String :=
  match handle room verbose verdict with
  | (output, none) => output
  | (output, some b) => output ++ breakdownBlock b

def isLeave (line : String) : Bool := line == "exit" || line == "quit"

def isSkipped (line : String) : Bool := line.isEmpty || line.toList.head? == some '#'

/-- The word of the mode, in any mixture of cases. -/
def isToggle (line : String) : Bool := line.toList.map Char.toLower == "verbose-mode".toList

def modeLine (verbose : Bool) : String :=
  "[mode] >>> Verbose mode " ++ (if verbose then "ON" else "OFF") ++ "\n"

def reply (room : Nat) (verbose : Bool) : Input → Reply
  | .line text =>
    let line := Text.strip text
    if isLeave line then ⟨farewell, [], verbose, true⟩
    else if isSkipped line then ⟨"", [], verbose, false⟩
    else if isToggle line then ⟨modeLine !verbose, [], !verbose, false⟩
    else
      let (verdict, log) := check line
      ⟨answer room verbose verdict, log, verbose, false⟩
  | .endOfInput | .interrupt => ⟨"\n" ++ farewell, [], verbose, true⟩

/-- The replies of a session up to its end, and the inputs that were not read. The input ends where
its list does. -/
def replies (room : Nat) (verbose : Bool) : List Input → List Reply × List Input
  | [] => ([reply room verbose .endOfInput], [])
  | i :: is =>
    let r := reply room verbose i
    if r.ended then ([r], is)
    else
      let (rs, unread) := replies room r.verbose is
      (r :: rs, unread)

/-- What is printed up to and including each prompt, and behind the last one. -/
def segments : String → List Reply → List String
  | before, [] => [before]
  | before, r :: rs => (before ++ prompt) :: segments r.output rs

structure Transcript where
  segments : List String
  log : List LogEntry
  /-- How many inputs were not read. -/
  unread : Nat

def run (room : Nat) (verbose : Bool) (inputs : List Input) : Transcript :=
  let (rs, unread) := replies room verbose inputs
  ⟨segments banner rs, rs.flatMap Reply.log, unread.length⟩

def Transcript.output (t : Transcript) : String := String.join t.segments

/-- The inputs that a text holds, one a line. -/
def inputsOf (s : String) : List Input := (Text.lines s).map Input.line

end Session

end MonkeySyntax
