import MonkeySyntax.Command.Execution

/-!
# The command line program

The outer layer: it reads the files that a request names, carries out what executing the command
decides, and holds a session with whoever is at the standard input.
-/

namespace MonkeySyntax.Command

/-- What stands at a place of the machine, which the given text spells. What is there and cannot be
read as a file counts as a directory. -/
def lookAt (p : Place) (text : String) : IO Files := do
  try
    return ⟨[(p, ← IO.FS.readBinFile text)], [], []⟩
  catch
    | .noFileOrDirectory .. => return ⟨[], [], []⟩
    | _ => return ⟨[], [p], []⟩

/-- What stands at the given place and, as far as there are directories, where names lead on. -/
def lookAlong (p : Place) (text : String) : List String → IO Files
  | [] => lookAt p text
  | name :: names => do
    let first ← lookAt p text
    if first.directories.isEmpty then return first
    let rest ← lookAlong (Path.follow p name) (text ++ "/" ++ name) names
    return ⟨first.contents ++ rest.contents, first.directories ++ rest.directories, []⟩

/-- The files that the given paths may meet. -/
def filesFor (paths : List String) : IO Files := do
  let here := (Path.ofString (← IO.currentDir).toString).names.reverse
  let mut files : Files := ⟨[], [], here⟩
  for text in paths do
    let path := Path.ofString text
    let seen ← if path.fromRoot then lookAlong [] "/" path.names else lookAlong here "." path.names
    files := ⟨files.contents ++ seen.contents, files.directories ++ seen.directories, here⟩
  return files

def finish (exit : Nat) (output errors : String) : IO UInt32 := do
  IO.print output
  IO.eprint errors
  return exit.toUInt32

def fulfil (r : Request) (verbose : Bool) : IO UInt32 := do
  let source := if r.isText then [] else [r.source]
  let result := r.execute verbose (← filesFor (source ++ r.target?.toList)) showingRoom
  match result.ending, r.target? with
  | .escaped f, _ =>
    IO.eprint result.errors
    throw (IO.userError f.message)
  | .exit 0, some path =>
    match result.files.read path with
    | .error _ => finish 0 result.output result.errors
    | .ok bytes =>
      try
        IO.FS.writeBinFile path bytes
        finish 0 result.output result.errors
      catch e => finish 1 "" (result.errors ++ s!"[error] >>> {e}\n")
  | .exit status, _ => finish status result.output result.errors

/-- Answers line after line; the log is shown if the command was given in the verbose mode. -/
partial def converse (logged verbose : Bool) : IO Unit := do
  IO.print Session.prompt
  (← IO.getStdout).flush
  let line ← (← IO.getStdin).getLine
  let r := Session.reply showingRoom verbose (if line.isEmpty then .endOfInput else .line line)
  IO.eprint (logLines logged r.log)
  IO.print r.output
  if r.ended then return () else converse logged r.verbose

end MonkeySyntax.Command

open MonkeySyntax.Command in
/-- Parses a source file or text, or starts a session. -/
def main (arguments : List String) : IO UInt32 := do
  match Plan.ofArguments arguments with
  | .help => finish 0 helpText ""
  | .misuse m => finish 2 "" (misuseReport m)
  | .session verbose =>
    IO.print MonkeySyntax.Session.banner
    converse verbose verbose
    return 0
  | .request r verbose => fulfil r verbose
