import MonkeySyntax.Json.Basic
import MonkeySyntax.Text.Digits

/-!
# Reading JSON

The inverse of writing: values without booleans and fractions, in any layout of blanks. A reader
takes a value off the front of a text and returns what is left of it. Every step down costs one unit
of fuel, and the length of the text is fuel enough.
-/

namespace MonkeySyntax.Json

def isSpace (c : Char) : Bool := c == ' ' || c == '\t' || c == '\n' || c == '\r'

/-- Four hexadecimal digits. -/
def readUnit? : List Char → Option (Nat × List Char)
  | a :: b :: c :: d :: rest => do
    let a ← Text.hexValue? a
    let b ← Text.hexValue? b
    let c ← Text.hexValue? c
    let d ← Text.hexValue? d
    return (((a * 16 + b) * 16 + c) * 16 + d, rest)
  | _ => none

def isHighSurrogate (n : Nat) : Bool := 0xD800 ≤ n && n < 0xDC00

def isLowSurrogate (n : Nat) : Bool := 0xDC00 ≤ n && n < 0xE000

/-- The character of an escape behind its `\u`; a pair of surrogates is joined. -/
def readEscaped? (cs : List Char) : Option (Char × List Char) := do
  let (n, rest) ← readUnit? cs
  if isHighSurrogate n then
    match rest with
    | '\\' :: 'u' :: rest' =>
      let (m, rest'') ← readUnit? rest'
      if isLowSurrogate m then
        return (Char.ofNat (0x10000 + (n - 0xD800) * 0x400 + (m - 0xDC00)), rest'')
      else none
    | _ => none
  else if isLowSurrogate n then none
  else return (Char.ofNat n, rest)

/-- One character of a string, escapes decoded. -/
def readChar? : List Char → Option (Char × List Char)
  | '\\' :: '"' :: rest => some ('"', rest)
  | '\\' :: '\\' :: rest => some ('\\', rest)
  | '\\' :: '/' :: rest => some ('/', rest)
  | '\\' :: 'n' :: rest => some ('\n', rest)
  | '\\' :: 'r' :: rest => some ('\r', rest)
  | '\\' :: 't' :: rest => some ('\t', rest)
  | '\\' :: 'b' :: rest => some ('\x08', rest)
  | '\\' :: 'f' :: rest => some ('\x0c', rest)
  | '\\' :: 'u' :: rest => readEscaped? rest
  | '\\' :: _ => none
  | c :: rest => if c < ' ' then none else some (c, rest)
  | [] => none

/-- The characters of a string behind its opening quote. -/
def readChars? : Nat → List Char → Option (List Char × List Char)
  | 0, _ => none
  | _ + 1, '"' :: rest => some ([], rest)
  | fuel + 1, cs => do
    let (c, rest) ← readChar? cs
    let (s, rest') ← readChars? fuel rest
    return (c :: s, rest')

def readNat? (cs : List Char) : Option (Nat × List Char) :=
  match cs.takeWhile Char.isDigit with
  | [] => none
  | '0' :: _ :: _ => none
  | ds => some (ds.foldl (fun n d => n * 10 + (d.toNat - 48)) 0, cs.dropWhile Char.isDigit)

def readInt? : List Char → Option (Int × List Char)
  | '-' :: cs => (readNat? cs).map fun (n, rest) => (-(n : Int), rest)
  | cs => (readNat? cs).map fun (n, rest) => ((n : Int), rest)

mutual

def readValue? : Nat → List Char → Option (Value × List Char)
  | 0, _ => none
  | fuel + 1, cs =>
    match cs.dropWhile isSpace with
    | 'n' :: 'u' :: 'l' :: 'l' :: rest => some (.null, rest)
    | '"' :: rest => (readChars? fuel rest).map fun (s, rest) => (.string (String.ofList s), rest)
    | '[' :: rest =>
      match rest.dropWhile isSpace with
      | ']' :: rest => some (.array [], rest)
      | rest => do
        let (v, rest) ← readValue? fuel rest
        let (vs, rest) ← readItems? fuel rest
        return (.array (v :: vs), rest)
    | '\x7b' :: rest =>
      match rest.dropWhile isSpace with
      | '\x7d' :: rest => some (.object [], rest)
      | rest => do
        let (f, rest) ← readField? fuel rest
        let (fs, rest) ← readFields? fuel rest
        return (.object (f :: fs), rest)
    | rest => (readInt? rest).map fun (i, rest) => (.int i, rest)

/-- The items behind the first one, and the closing bracket. -/
def readItems? : Nat → List Char → Option (List Value × List Char)
  | 0, _ => none
  | fuel + 1, cs =>
    match cs.dropWhile isSpace with
    | ']' :: rest => some ([], rest)
    | ',' :: rest => do
      let (v, rest) ← readValue? fuel rest
      let (vs, rest) ← readItems? fuel rest
      return (v :: vs, rest)
    | _ => none

def readField? : Nat → List Char → Option ((String × Value) × List Char)
  | 0, _ => none
  | fuel + 1, cs =>
    match cs.dropWhile isSpace with
    | '"' :: rest => do
      let (k, rest) ← readChars? fuel rest
      match rest.dropWhile isSpace with
      | ':' :: rest =>
        let (v, rest) ← readValue? fuel rest
        return ((String.ofList k, v), rest)
      | _ => none
    | _ => none

/-- The fields behind the first one, and the closing brace. -/
def readFields? : Nat → List Char → Option (List (String × Value) × List Char)
  | 0, _ => none
  | fuel + 1, cs =>
    match cs.dropWhile isSpace with
    | '\x7d' :: rest => some ([], rest)
    | ',' :: rest => do
      let (f, rest) ← readField? fuel rest
      let (fs, rest) ← readFields? fuel rest
      return (f :: fs, rest)
    | _ => none

end

/-- Reads a whole text as one value. -/
def read? (s : String) : Option Value :=
  match readValue? (s.length + 1) s.toList with
  | some (v, rest) => if rest.all isSpace then some v else none
  | none => none

end MonkeySyntax.Json
