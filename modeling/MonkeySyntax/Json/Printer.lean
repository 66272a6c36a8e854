import MonkeySyntax.Json.Basic
import MonkeySyntax.Text.Digits

/-!
# Writing JSON

Two layouts of one value: on a single line, or with every item and field on a line of its own and
two blanks of indentation for each level. Both are pure ASCII: every other character is written as
an escape, by a pair of surrogates where sixteen bits do not hold it. A writer puts its text in
front of a given rest.
-/

namespace MonkeySyntax.Json

inductive Layout where
  | compact
  | indented
deriving DecidableEq, Repr

namespace Layout

/-- What follows an opening bracket and precedes a closing one, at the given depth. -/
def lineBreak (depth : Nat) : Layout → List Char
  | compact => []
  | indented => '\n' :: List.replicate (2 * depth) ' '

/-- What stands between two items at the given depth. -/
def separator (depth : Nat) : Layout → List Char
  | compact => [',', ' ']
  | indented => ',' :: lineBreak depth indented

end Layout

/-- The escape of one unit of sixteen bits. -/
def unitEscape (n : Nat) : List Char := '\\' :: 'u' :: Text.hexDigits 4 n

def escape (c : Char) : List Char :=
  if c = '"' then ['\\', '"']
  else if c = '\\' then ['\\', '\\']
  else if c = '\n' then ['\\', 'n']
  else if c = '\r' then ['\\', 'r']
  else if c = '\t' then ['\\', 't']
  else if c = '\x08' then ['\\', 'b']
  else if c = '\x0c' then ['\\', 'f']
  else if ' ' ≤ c ∧ c ≤ '~' then [c]
  else if c.toNat < 0x10000 then unitEscape c.toNat
  else
    unitEscape (0xD800 + (c.toNat - 0x10000) / 0x400) ++
      unitEscape (0xDC00 + (c.toNat - 0x10000) % 0x400)

def writeChars : List Char → List Char → List Char
  | [], rest => '"' :: rest
  | c :: cs, rest => escape c ++ writeChars cs rest

def writeString (s : String) (rest : List Char) : List Char := '"' :: writeChars s.toList rest

mutual

def write (l : Layout) (depth : Nat) : Value → List Char → List Char
  | .null, rest => 'n' :: 'u' :: 'l' :: 'l' :: rest
  | .int i, rest => Text.signedDecimal i ++ rest
  | .string s, rest => writeString s rest
  | .array [], rest => '[' :: ']' :: rest
  | .array (v :: vs), rest =>
    '[' :: (l.lineBreak (depth + 1) ++
      write l (depth + 1) v (writeItems l (depth + 1) vs (l.lineBreak depth ++ ']' :: rest)))
  | .object [], rest => '\x7b' :: '\x7d' :: rest
  | .object ((k, v) :: fs), rest =>
    '\x7b' :: (l.lineBreak (depth + 1) ++
      writeString k (':' :: ' ' :: write l (depth + 1) v
        (writeFields l (depth + 1) fs (l.lineBreak depth ++ '\x7d' :: rest))))

/-- The items behind the first one. -/
def writeItems (l : Layout) (depth : Nat) : List Value → List Char → List Char
  | [], rest => rest
  | v :: vs, rest => l.separator depth ++ write l depth v (writeItems l depth vs rest)

/-- The fields behind the first one. -/
def writeFields (l : Layout) (depth : Nat) : List (String × Value) → List Char → List Char
  | [], rest => rest
  | (k, v) :: fs, rest =>
    l.separator depth ++
      writeString k (':' :: ' ' :: write l depth v (writeFields l depth fs rest))

end

/-- The text of a value in a layout. -/
def Value.print (l : Layout) (v : Value) : String := String.ofList (write l 0 v [])

end MonkeySyntax.Json
