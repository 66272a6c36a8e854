/-!
# Integer literals

A literal is an optional sign and a body in base 16 (`0x1F`), 8 (`0o17`, or `017` with a bare
leading zero), 2 (`0b101`) or 10. One underscore may stand before a digit, though not before the
first digit of a decimal body. Reading a literal takes it apart into sign, base and digits and then
gives the positional value, if that is a signed 64-bit integer. A decimal body of more than 4300
digits is refused outright.
-/

namespace MonkeySyntax

def int64Min : Int := -Int.pow 2 63

def int64Max : Int := Int.pow 2 63 - 1

structure Numeral where
  negative : Bool
  base : Nat
  /-- The values of the digits, the most significant first. -/
  digits : List Nat
deriving DecidableEq, Repr

/-- The refusal of a decimal literal that has too many digits to be converted. -/
structure OverlongNumeral where
  digits : Nat
deriving DecidableEq, Repr

namespace OverlongNumeral

def limit : Nat := 4300

def message (e : OverlongNumeral) : String :=
  s!"Exceeds the limit ({limit} digits) for integer string conversion: value has {e.digits} digits; "
    ++ "use sys.set_int_max_str_digits() to increase the limit"

end OverlongNumeral

namespace Numeral

/-- The value of an ASCII digit or of one of the letters `a` to `f` in either case. -/
def digitValue? (c : Char) : Option Nat :=
  if '0' ≤ c ∧ c ≤ '9' then some (c.toNat - '0'.toNat)
  else if 'a' ≤ c ∧ c ≤ 'f' then some (c.toNat - 'a'.toNat + 10)
  else if 'A' ≤ c ∧ c ≤ 'F' then some (c.toNat - 'A'.toNat + 10)
  else none

def digit? (base : Nat) (c : Char) : Option Nat :=
  (digitValue? c).filter (· < base)

/-- Digits of a base, one underscore allowed before each of them. -/
def grouped? (base : Nat) : List Char → Option (List Nat)
  | [] => some []
  | '_' :: c :: cs => do
    let d ← digit? base c
    let ds ← grouped? base cs
    return d :: ds
  | c :: cs => do
    let d ← digit? base c
    let ds ← grouped? base cs
    return d :: ds

/-- At least one digit of the base. -/
def based? (base : Nat) (cs : List Char) : Option (Nat × List Nat) :=
  match grouped? base cs with
  | none | some [] => none
  | some ds => some (base, ds)

/-- The base and the digits of a body without its sign. -/
def body? : List Char → Option (Nat × List Nat)
  | [] => none
  | ['0'] => some (10, [0])
  | '0' :: mark :: cs =>
    if mark = 'x' ∨ mark = 'X' then based? 16 cs
    else if mark = 'o' ∨ mark = 'O' then based? 8 cs
    else if mark = 'b' ∨ mark = 'B' then based? 2 cs
    else based? 8 (mark :: cs)
  | c :: cs => if c = '_' then none else based? 10 (c :: cs)

def ofChars? : List Char → Option Numeral
  | '-' :: cs => (body? cs).map fun (base, ds) => ⟨true, base, ds⟩
  | '+' :: cs => (body? cs).map fun (base, ds) => ⟨false, base, ds⟩
  | cs => (body? cs).map fun (base, ds) => ⟨false, base, ds⟩

def magnitude (n : Numeral) : Nat :=
  n.digits.foldl (fun acc d => acc * n.base + d) 0

def value (n : Numeral) : Int :=
  if n.negative then -(n.magnitude : Int) else n.magnitude

def overlong (n : Numeral) : Bool :=
  n.base == 10 && OverlongNumeral.limit < n.digits.length

end Numeral

/-- Reads a literal as a signed 64-bit integer; there is none where the literal is malformed or out
of range. -/
def readInt64 (literal : String) : Except OverlongNumeral (Option Int) :=
  match Numeral.ofChars? literal.toList with
  | none => .ok none
  | some n =>
    if n.overlong then .error ⟨n.digits.length⟩
    else if int64Min ≤ n.value ∧ n.value ≤ int64Max then .ok (some n.value)
    else .ok none

end MonkeySyntax
