import MonkeySyntax.Ast.Render
import MonkeySyntax.Text.Digits
import MonkeySyntax.Text.Quoted

/-!
# Options of the command line

Seven options, most with a short and a long spelling, and one positional argument. A long spelling
may be cut short where that leaves one option only, short ones may be run together, and a value may
be attached. A lone `--` ends the options. Reading the arguments goes from left to right: first
every argument is classified, then options take their values and arguments take the place that is
left. The first misuse that this meets is reported.
-/

namespace MonkeySyntax.Command

inductive Switch where
  | help | string | format | out | pretty | repl | verbose
deriving DecidableEq, Repr

namespace Switch

/-- The spellings of the options, in the order in which messages list them. -/
def spellings : List (String × Switch) :=
  [("-h", help), ("--help", help), ("-s", string), ("--string", string), ("-f", format),
    ("--format", format), ("-o", out), ("--out", out), ("-p", pretty), ("--pretty", pretty),
    ("--repl", repl), ("--verbose", verbose)]

def ofSpelling? (s : String) : Option Switch := spellings.lookup s

def takesValue : Switch → Bool
  | format | out => true
  | _ => false

/-- How messages name the option: all its spellings. -/
def label (s : Switch) : String :=
  "/".intercalate ((spellings.filter fun p => p.2 == s).map Prod.fst)

end Switch

inductive Misuse where
  | ambiguous (argument : String) (spellings : List String)
  | ignoredValue (switch : Switch) (value : String)
  | missingValue (switch : Switch)
  | invalidChoice (switch : Switch) (value : String)
  | unrecognized (arguments : List String)
deriving DecidableEq, Repr

/-- The names of the output formats. -/
def formatNames : List String := ["text", "json"]

namespace Misuse

def message : Misuse → String
  | ambiguous argument spellings =>
    s!"ambiguous option: {argument} could match " ++ ", ".intercalate spellings
  | ignoredValue switch value =>
    s!"argument {switch.label}: ignored explicit argument {Text.quoted value}"
  | missingValue switch => s!"argument {switch.label}: expected one argument"
  | invalidChoice switch value =>
    s!"argument {switch.label}: invalid choice: {Text.quoted value} (choose from "
      ++ ", ".intercalate (formatNames.map Text.quoted) ++ ")"
  | unrecognized arguments => "unrecognized arguments: " ++ " ".intercalate arguments

end Misuse

/-! ## Classifying arguments -/

/-- What an argument is by its look. -/
inductive Argument where
  | plain (text : String)
  | terminator
  /-- An option, whether it was spelt short, and the value attached to it. -/
  | option (switch : Switch) (short : Bool) (attached : Option String)
  | unknown (text : String)
deriving DecidableEq, Repr

/-- The parts of a text before and behind its first equals sign. -/
def splitAtEquals (cs : List Char) : List Char × Option (List Char) :=
  match cs.span (· ≠ '=') with
  | (before, []) => (before, none)
  | (before, _ :: behind) => (before, some behind)

/-- A negative number such as `-5`, `-.5` or `-1.5`, in decimal digits of any script. A single line
feed may follow a number. -/
def isNegativeNumber (cs : List Char) : Bool :=
  match cs with
  | '-' :: digits =>
    let digits := if digits.getLast? = some '\n' then digits.dropLast else digits
    match digits.span Text.isDecimalDigit with
    | (whole, []) => !whole.isEmpty
    | (_, '.' :: fraction) => !fraction.isEmpty && fraction.all Text.isDecimalDigit
    | _ => false
  | _ => false

/-- The long spellings that an argument may stand for. -/
def completions (start : List Char) : List (String × Switch) :=
  Switch.spellings.filter fun p => start.isPrefixOf p.1.toList

/-- An argument that starts with a dash and is no full spelling of an option. -/
def classifyDashed (text : String) : Except Misuse Argument :=
  let (before, attached) := splitAtEquals text.toList
  match Switch.ofSpelling? (String.ofList before), attached with
  | some switch, some value =>
    .ok (.option switch (before.length = 2) (some (String.ofList value)))
  | _, _ =>
    match text.toList with
    | '-' :: '-' :: _ =>
      match completions before with
      | [] => .ok (if text.toList.contains ' ' then .plain text else .unknown text)
      | [(_, switch)] => .ok (.option switch false (attached.map String.ofList))
      | several => .error (.ambiguous text (several.map Prod.fst))
    | '-' :: c :: value =>
      match Switch.ofSpelling? (String.ofList ['-', c]) with
      | some switch => .ok (.option switch true (some (String.ofList value)))
      | none =>
        .ok (if isNegativeNumber text.toList || text.toList.contains ' ' then .plain text
          else .unknown text)
    | _ => .ok (.plain text)

/-- An argument that may be an option. -/
def classify (text : String) : Except Misuse Argument :=
  match text.toList with
  | '-' :: _ =>
    match Switch.ofSpelling? text with
    | some switch => .ok (.option switch (text.length = 2) none)
    | none => classifyDashed text
  | _ => .ok (.plain text)

/-- Everything behind the first `--` is plain. -/
def classifyAll : List String → Except Misuse (List Argument)
  | [] => .ok []
  | text :: texts =>
    if text = "--" then .ok (.terminator :: texts.map .plain)
    else do
      let a ← classify text
      let as ← classifyAll texts
      return a :: as

/-! ## Reading arguments -/

structure Settings where
  source : Option String
  string : Bool
  format : Format
  out : Option String
  pretty : Bool
  repl : Bool
  verbose : Bool
deriving DecidableEq, Repr

/-- The settings where nothing is given. -/
def Settings.default : Settings := ⟨none, false, .text, none, false, false, false⟩

/-- Why reading the arguments stops early: help was asked for, or the command was misused. -/
inductive Stop where
  | help
  | misuse (m : Misuse)
deriving DecidableEq, Repr

/-- The options run together behind one dash, from a first one with the text attached to it. Where
the last one has to find its value elsewhere, it has none. -/
def cluster (switch : Switch) (short : Bool) (attached : List Char) :
    Except Misuse (List (Switch × Option String)) :=
  if switch.takesValue then .ok [(switch, some (String.ofList attached))]
  else
    match short, attached with
    | true, c :: tail =>
      match Switch.ofSpelling? (String.ofList ['-', c]), tail with
      | some next, [] => .ok [(switch, none), (next, none)]
      | some next, d :: tail => (cluster next true (d :: tail)).map ((switch, none) :: ·)
      | none, _ => .error (.ignoredValue switch (String.ofList attached))
    | _, _ => .error (.ignoredValue switch (String.ofList attached))
termination_by attached.length

/-- The options of one argument, each with its value where that is attached. -/
def optionsOf (switch : Switch) (short : Bool) :
    Option String → Except Misuse (List (Switch × Option String))
  | none => .ok [(switch, none)]
  | some attached => cluster switch short attached.toList

/-- Carries an option out. An attached `--` is no value, and an option with no value is reset. -/
def Settings.apply (s : Settings) (switch : Switch) (value : Option String) :
    Except Stop Settings :=
  let value := value.filter (· ≠ "--")
  match switch with
  | .help => .error .help
  | .string => .ok { s with string := true }
  | .format =>
    match value with
    | none => .ok { s with format := .text }
    | some v =>
      if formatNames.contains v then .ok { s with format := Format.ofName v }
      else .error (.misuse (.invalidChoice .format v))
  | .out => .ok { s with out := value }
  | .pretty => .ok { s with pretty := true }
  | .repl => .ok { s with repl := true }
  | .verbose => .ok { s with verbose := true }

def Settings.applyAll (s : Settings) : List (Switch × Option String) → Except Stop Settings
  | [] => .ok s
  | (switch, value) :: rest => do
    let s ← s.apply switch value
    s.applyAll rest

/-- What reading has come to: the settings, whether the place of the positional argument is taken,
and the arguments that found no place, last first. -/
structure Progress where
  settings : Settings
  placed : Bool
  extras : List String

/-- Whether the last of the options in one argument has to take the next argument as its value. -/
def wantsNext (options : List (Switch × Option String)) : Option Switch :=
  match options.getLast? with
  | some (switch, none) => if switch.takesValue then some switch else none
  | _ => none

/-- Reads the arguments from left to right. -/
def readFrom (p : Progress) : List Argument → Except Stop Progress
  | [] => .ok p
  | .unknown text :: rest => readFrom { p with extras := text :: p.extras } rest
  | .plain text :: rest =>
    if p.placed then readFrom { p with extras := text :: p.extras } rest
    else
      let p := { p with settings := { p.settings with source := some text }, placed := true }
      match rest with
      | .terminator :: rest => readFrom p rest
      | rest => readFrom p rest
  | .terminator :: rest =>
    if p.placed then readFrom { p with extras := "--" :: p.extras } rest
    else
      match rest with
      | .plain text :: rest =>
        readFrom
          { p with settings := { p.settings with source := some text }, placed := true } rest
      | rest => readFrom { p with placed := true } rest
  | .option switch short attached :: rest =>
    match optionsOf switch short attached with
    | .error m => .error (.misuse m)
    | .ok options =>
      match wantsNext options with
      | none =>
        match p.settings.applyAll options with
        | .error s => .error s
        | .ok settings => readFrom { p with settings := settings } rest
      | some last =>
        match rest with
        | .plain text :: rest =>
          match p.settings.applyAll (options.dropLast ++ [(last, some text)]) with
          | .error s => .error s
          | .ok settings => readFrom { p with settings := settings } rest
        | _ => .error (.misuse (.missingValue last))

/-- The settings that the arguments of a command ask for. -/
def Settings.ofArguments (arguments : List String) : Except Stop Settings :=
  match classifyAll arguments with
  | .error m => .error (.misuse m)
  | .ok as =>
    match readFrom ⟨.default, false, []⟩ as with
    | .error s => .error s
    | .ok p =>
      if p.extras.isEmpty then .ok p.settings
      else .error (.misuse (.unrecognized p.extras.reverse))

end MonkeySyntax.Command
