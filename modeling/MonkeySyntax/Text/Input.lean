import MonkeySyntax.Text.Digits

/-!
# Input as text

What is read from a file or a terminal becomes text in three steps. Octets are decoded as UTF-8, or
the first fault in them is reported: an octet that starts no character, a character that breaks off
at the end of the data, or one that is followed by an octet which does not continue it. The three
line ends in use, a line feed, a carriage return and the pair of both, become line feeds. The lines
of a session are stripped of the white space around them.
-/

namespace MonkeySyntax.Text

/-! ## Decoding UTF-8 -/

namespace Utf8

inductive FaultKind where
  | invalidStart | invalidContinuation | unexpectedEnd
deriving DecidableEq, Repr

structure DecodeFault where
  kind : FaultKind
  /-- Position of the first octet of the character. -/
  start : Nat
  /-- How many octets the fault spans. -/
  length : Nat
  first : UInt8
deriving DecidableEq, Repr

def FaultKind.reason : FaultKind → String
  | invalidStart => "invalid start byte"
  | invalidContinuation => "invalid continuation byte"
  | unexpectedEnd => "unexpected end of data"

def DecodeFault.message (f : DecodeFault) : String :=
  let place :=
    if f.length ≤ 1 then
      s!"byte 0x{String.ofList (hexDigits 2 f.first.toNat)} in position {f.start}"
    else s!"bytes in position {f.start}-{f.start + f.length - 1}"
  s!"'utf-8' codec can't decode {place}: {f.kind.reason}"

/-- What a character still lacks: how many octets, and the bounds of the next of them. -/
structure Owed where
  count : Nat
  low : UInt8
  high : UInt8

/-- What a character lacks behind its first octet. -/
def owed? (b : UInt8) : Option Owed :=
  if b < 0x80 then some ⟨0, 0x80, 0xBF⟩
  else if b < 0xC2 then none
  else if b < 0xE0 then some ⟨1, 0x80, 0xBF⟩
  else if b < 0xF0 then
    some ⟨2, if b = 0xE0 then 0xA0 else 0x80, if b = 0xED then 0x9F else 0xBF⟩
  else if b < 0xF5 then
    some ⟨3, if b = 0xF0 then 0x90 else 0x80, if b = 0xF4 then 0x8F else 0xBF⟩
  else none

/-- The character that is being read. -/
structure Pending where
  start : Nat
  first : UInt8
  taken : Nat
  owed : Owed

def Pending.fault (p : Pending) (kind : FaultKind) : DecodeFault :=
  ⟨kind, p.start, p.taken, p.first⟩

/-- The first fault from a position on, where a character may be under way. -/
def fault? (position : Nat) : Option Pending → List UInt8 → Option DecodeFault
  | none, [] => none
  | some p, [] => some (p.fault .unexpectedEnd)
  | none, b :: bs =>
    match owed? b with
    | none => some ⟨.invalidStart, position, 1, b⟩
    | some owed =>
      if owed.count = 0 then fault? (position + 1) none bs
      else fault? (position + 1) (some ⟨position, b, 1, owed⟩) bs
  | some p, b :: bs =>
    if p.owed.low ≤ b ∧ b ≤ p.owed.high then
      if p.owed.count = 1 then fault? (position + 1) none bs
      else
        fault? (position + 1)
          (some { p with taken := p.taken + 1, owed := ⟨p.owed.count - 1, 0x80, 0xBF⟩ }) bs
    else some (p.fault .invalidContinuation)

def decode (bytes : ByteArray) : Except DecodeFault String :=
  match String.fromUTF8? bytes with
  | some s => .ok s
  | none => .error ((fault? 0 none bytes.data.toList).getD ⟨.invalidStart, 0, 1, 0⟩)

/-- The UTF-8 form of a text decodes to that text. -/
theorem decode_toUTF8 (s : String) : decode s.toUTF8 = .ok s := by
  have h : String.fromUTF8? s.toUTF8 = some s := by
    simp only [String.fromUTF8?, String.toUTF8_eq_toByteArray, s.isValidUTF8, dite_true]
    rfl
  simp only [decode, h]

theorem decode_eq_ok_iff {bytes : ByteArray} {s : String} :
    decode bytes = .ok s ↔ bytes = s.toUTF8 := by
  constructor
  · intro h
    by_cases hvalid : bytes.IsValidUTF8
    · rw [decode, String.fromUTF8?, dif_pos hvalid] at h
      cases h
      rfl
    · rw [decode, String.fromUTF8?, dif_neg hvalid] at h
      cases h
  · rintro rfl
    exact decode_toUTF8 s

end Utf8

/-! ## Line ends -/

/-- A carriage return with the line feed that may follow it becomes a line feed. -/
def unifyLineEnds : List Char → List Char
  | '\r' :: '\n' :: cs => '\n' :: unifyLineEnds cs
  | '\r' :: cs => '\n' :: unifyLineEnds cs
  | c :: cs => c :: unifyLineEnds cs
  | [] => []

/-- The lines of a text, each of which a line feed ends; the last one need not be ended. -/
def splitLines : List Char → List (List Char)
  | [] => []
  | '\n' :: cs => [] :: splitLines cs
  | c :: cs =>
    match splitLines cs with
    | [] => [[c]]
    | l :: ls => (c :: l) :: ls

def lines (s : String) : List String := (splitLines s.toList).map String.ofList

/-! ## White space -/

/-- The ASCII and ISO control characters that separate, and the Unicode spaces and separators. -/
def isSpace (c : Char) : Bool :=
  let n := c.toNat
  (0x09 ≤ n && n ≤ 0x0D) || (0x1C ≤ n && n ≤ 0x20) || n == 0x85 || n == 0xA0 || n == 0x1680 ||
    (0x2000 ≤ n && n ≤ 0x200A) || n == 0x2028 || n == 0x2029 || n == 0x202F || n == 0x205F ||
    n == 0x3000

/-- A text without the white space at its ends. -/
def strip (s : String) : String :=
  String.ofList (((s.toList.dropWhile isSpace).reverse.dropWhile isSpace).reverse)

end MonkeySyntax.Text
