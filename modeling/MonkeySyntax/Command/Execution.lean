import MonkeySyntax.Command.Options
import MonkeySyntax.Command.Request
import MonkeySyntax.Session

/-!
# Executing a command

The arguments of a command decide between a message, an interactive session and a request. Executing
it gives the exit status, what is printed on the output and the error output, and the files it
leaves behind. The log is shown on the error output in the verbose mode.
-/

namespace MonkeySyntax.Command

def usage : String :=
  "usage: monkey [-h] [-s] [-f \x7btext,json\x7d] [-o OUTFILE] [-p] [--repl]\n" ++
  "              [--verbose]\n" ++
  "              [source]\n"

def helpText : String :=
  usage ++
  "\n" ++
  "positional arguments:\n" ++
  "  source                Filename or raw source (with -s)\n" ++
  "\n" ++
  "options:\n" ++
  "  -h, --help            show this help message and exit\n" ++
  "  -s, --string          Interpret source as literal string\n" ++
  "  -f \x7btext,json\x7d, --format \x7btext,json\x7d\n" ++
  "                        Output format (default: text)\n" ++
  "  -o OUTFILE, --out OUTFILE\n" ++
  "                        Output to file\n" ++
  "  -p, --pretty          Show output with banners\n" ++
  "  --repl                Launch interactive REPL instead of parsing a source\n" ++
  "  --verbose             Debug logging and verbose REPL mode\n"

/-- What a command comes to once its arguments are read. -/
inductive Plan where
  | help
  | misuse (m : Misuse)
  | session (verbose : Bool)
  | request (r : Request) (verbose : Bool)
deriving DecidableEq, Repr

/-- A session where one is asked for or no source is given, and a request otherwise. -/
def Plan.ofSettings (s : Settings) : Plan :=
  match s.repl, s.source with
  | false, some source => .request ⟨source, s.string, s.format, s.out, s.pretty⟩ s.verbose
  | _, _ => .session s.verbose

def Plan.ofArguments (arguments : List String) : Plan :=
  match Settings.ofArguments arguments with
  | .error .help => .help
  | .error (.misuse m) => .misuse m
  | .ok s => .ofSettings s

def misuseReport (m : Misuse) : String := usage ++ s!"monkey: error: {m.message}\n"

/-- A command handles reports, values out of place and failures of the system, and nothing else. -/
def FailureCategory.isCaught : FailureCategory → Bool
  | report | value | system => true
  | assertion | recursion => false

/-- What the error output says of a failed request, where the failure is handled. -/
def Failure.report : Failure → String
  | .rejected (.report r) => "[error] >>>\n" ++ Session.indentedLines r.messages
  | f => s!"[error] >>> {f.message}\n"

def logLines (verbose : Bool) (log : List LogEntry) : String :=
  if verbose then String.join (log.map fun e => e.line ++ "\n") else ""

/-- How a command ends: with an exit status, or by a failure that it does not handle. -/
inductive Ending where
  | exit (status : Nat)
  | escaped (f : Failure)
deriving DecidableEq, Repr

structure Result where
  ending : Ending
  output : String
  errors : String
  files : Files

def Request.execute (r : Request) (verbose : Bool) (files : Files) (room : Nat) : Result :=
  let (answer, w) := r.run ⟨files, "", [], room⟩
  let errors := logLines verbose w.log
  match answer with
  | .ok _ => ⟨.exit 0, w.output, errors, w.files⟩
  | .error f =>
    if f.category.isCaught then ⟨.exit 1, w.output, errors ++ f.report, w.files⟩
    else ⟨.escaped f, w.output, errors, w.files⟩

/-- Executes a command on its arguments, the text of its standard input, and the files, with room
for so many calls while a program is shown. -/
def execute (arguments : List String) (input : String) (files : Files) (room : Nat) : Result :=
  match Plan.ofArguments arguments with
  | .help => ⟨.exit 0, helpText, "", files⟩
  | .misuse m => ⟨.exit 2, "", misuseReport m, files⟩
  | .session verbose =>
    let t := Session.run room verbose (Session.inputsOf input)
    ⟨.exit 0, t.output, logLines verbose t.log, files⟩
  | .request r verbose => r.execute verbose files room

/-- How many calls may be open at once. -/
def callLimit : Nat := 1000

/-- The room that is left when a program is shown, with the program, the command, the request or the
session, and what shows it for them still open. -/
def showingRoom : Nat := callLimit - 4

end MonkeySyntax.Command
