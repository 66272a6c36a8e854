import MonkeySyntax.Ast.Render
import MonkeySyntax.Files
import MonkeySyntax.Text.Input
import MonkeySyntax.Verdict

/-!
# Requests

A request parses one source text, given as such or as the path of a file, and delivers the rendering
of its program, on the output or to a file. Everything that can fail comes before the delivery, and
so a failed request leaves output and files as they were. One of the failures is that a program is
nested too deep to be rendered.
-/

namespace MonkeySyntax.Command

structure Request where
  source : String
  /-- The source is the text itself, not a path. -/
  isText : Bool
  format : Format
  out : Option String
  pretty : Bool
deriving DecidableEq, Repr

/-- Why a request fails. -/
inductive Failure where
  | unsupportedFile
  | file (f : FileFault)
  | decode (f : Text.Utf8.DecodeFault)
  | rejected (r : Rejection)
  | overrun (o : Overrun)
deriving DecidableEq, Repr

/-- The sorts of failures that handlers tell apart. -/
inductive FailureCategory where
  | report | value | system | assertion | recursion
deriving DecidableEq, Repr

namespace Failure

def message : Failure → String
  | unsupportedFile => "Only .monkey files are supported."
  | file f => f.message
  | decode f => f.message
  | rejected r => r.message
  | overrun o => o.message

def category : Failure → FailureCategory
  | unsupportedFile | decode _ => .value
  | file f => if f.cause = .nullCharacter then .value else .system
  | rejected (.report _) => .report
  | rejected (.fault (.overlong _)) => .value
  | rejected (.fault .missingOperand) => .assertion
  | overrun _ => .recursion

end Failure

/-- What a request can see and change. -/
structure World where
  files : Files
  output : String
  log : List LogEntry
  /-- How many calls may be opened while a program is rendered. -/
  room : Nat

namespace World

def print (w : World) (s : String) : World := { w with output := w.output ++ s }

def note (w : World) (entries : List LogEntry) : World := { w with log := w.log ++ entries }

end World

def extension : String := ".monkey"

def hasExtension (path : String) : Bool := extension.toList.isSuffixOf path.toList

def bannerLine : String := String.ofList (List.replicate 20 '=')

/-- The text of a source file, its line ends made one. -/
def readText (bytes : ByteArray) : Except Failure String :=
  match Text.Utf8.decode bytes with
  | .error f => .error (.decode f)
  | .ok s => .ok (String.ofList (Text.unifyLineEnds s.toList))

namespace Request

/-- The file that the rendering goes to; an empty path stands for the output. -/
def target? (r : Request) : Option String := r.out.filter (· ≠ "")

def readSource (r : Request) (w : World) : Except Failure String × World :=
  if r.isText then (.ok r.source, w)
  else if hasExtension r.source then
    let w := w.note [.reading r.source]
    match w.files.read r.source with
    | .error f => (.error (.file f), w)
    | .ok bytes => (readText bytes, w)
  else (.error .unsupportedFile, w)

/-- What is printed of a rendering that goes to the output. -/
def printed (r : Request) (rendering : String) : String :=
  if r.pretty then
    bannerLine ++ "\nParsed program\n" ++ bannerLine ++ "\n" ++ rendering ++ "\n" ++ bannerLine
      ++ "\n\n"
  else rendering ++ "\n"

def deliver (r : Request) (rendering : String) (w : World) : Except Failure Unit × World :=
  match r.target? with
  | none => (.ok (), w.print (r.printed rendering))
  | some path =>
    match w.files.write path rendering.toUTF8 with
    | .error f => (.error (.file f), w)
    | .ok files =>
      let w := { w with files := files }
      (.ok (), if r.pretty then w.print s!"(wrote to {path})\n" else w)

def run (r : Request) (w : World) : Except Failure Unit × World :=
  match r.readSource w with
  | (.error f, w) => (.error f, w)
  | (.ok source, w) =>
    let (verdict, log) := check source
    let w := w.note log
    match verdict with
    | .error e => (.error (.rejected e), w)
    | .ok program =>
      match program.render? w.room r.format with
      | .error o => (.error (.overrun o), w)
      | .ok rendering => r.deliver rendering w

end Request

end MonkeySyntax.Command
