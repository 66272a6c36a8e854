/-!
# Digits and numerals

Numbers are written with the digits 0 to 9, with no leading zero and a minus sign before a negative
one; escapes write them in hexadecimal, with a fixed number of digits in lower case. The main
statements are that the digits of a number have that number as their positional value, and that a
hexadecimal digit has the value it was written for.
-/

namespace MonkeySyntax.Text

/-! ## Decimal numerals -/

def decimalDigit (n : Nat) : Char := Char.ofNat (48 + n)

/-- The digits of a number, the most significant first. -/
def decimal (n : Nat) : List Char :=
  if n < 10 then [decimalDigit n] else decimal (n / 10) ++ [decimalDigit (n % 10)]

def signedDecimal (i : Int) : List Char :=
  if i < 0 then '-' :: decimal i.natAbs else decimal i.natAbs

theorem isDigit_decimalDigit : ∀ d < 10, (decimalDigit d).isDigit := by
  decide

theorem toNat_decimalDigit : ∀ d < 10, (decimalDigit d).toNat - 48 = d := by
  decide

theorem decimalDigit_ne_zero : ∀ d < 10, d ≠ 0 → decimalDigit d ≠ '0' := by
  decide

theorem decimal_of_lt {n : Nat} (h : n < 10) : decimal n = [decimalDigit n] := by
  rw [decimal, if_pos h]

theorem decimal_ne_nil (n : Nat) : decimal n ≠ [] := by
  rw [decimal]
  split <;> simp

theorem isDigit_of_mem_decimal (n : Nat) : ∀ c ∈ decimal n, c.isDigit := by
  fun_induction decimal n with
  | case1 n h => simpa using isDigit_decimalDigit n h
  | case2 n h ih =>
    intro c hc
    rcases List.mem_append.mp hc with hc | hc
    · exact ih c hc
    · obtain rfl := List.mem_singleton.mp hc
      exact isDigit_decimalDigit _ (Nat.mod_lt _ (by omega))

/-- Only the number zero starts with a zero. -/
theorem head?_decimal_ne_zero {n : Nat} (h : n ≠ 0) : (decimal n).head? ≠ some '0' := by
  fun_induction decimal n with
  | case1 n hlt => simpa using decimalDigit_ne_zero n hlt h
  | case2 n hlt ih =>
    obtain ⟨c, cs, hcons⟩ := List.exists_cons_of_ne_nil (decimal_ne_nil (n / 10))
    have hfront := ih (by omega)
    simpa [hcons] using hfront

/-- The digits of a number have it as their positional value. -/
theorem foldl_decimal (n : Nat) :
    (decimal n).foldl (fun acc c => acc * 10 + (c.toNat - 48)) 0 = n := by
  fun_induction decimal n with
  | case1 n h => simp [toNat_decimalDigit n h]
  | case2 n h ih =>
    have hdigit := toNat_decimalDigit (n % 10) (Nat.mod_lt _ (by omega))
    rw [List.foldl_append, ih, List.foldl_cons, List.foldl_nil, hdigit]
    omega

/-! ## Hexadecimal digits -/

def hexDigit (n : Nat) : Char :=
  if n < 10 then Char.ofNat (48 + n) else Char.ofNat (87 + n)

/-- The last `width` hexadecimal digits of a number. -/
def hexDigits : Nat → Nat → List Char
  | 0, _ => []
  | width + 1, n => hexDigits width (n / 16) ++ [hexDigit (n % 16)]

/-- The value of a hexadecimal digit in either case. -/
def hexValue? (c : Char) : Option Nat :=
  if '0' ≤ c ∧ c ≤ '9' then some (c.toNat - 48)
  else if 'a' ≤ c ∧ c ≤ 'f' then some (c.toNat - 87)
  else if 'A' ≤ c ∧ c ≤ 'F' then some (c.toNat - 55)
  else none

theorem hexValue?_hexDigit : ∀ n < 16, hexValue? (hexDigit n) = some n := by
  decide

/-! ## Decimal digits of all scripts -/

/-- The code points of the zeros, as of Unicode 14. The characters of general category decimal
number come in runs of ten that start at a zero. -/
def decimalZeros : List Nat :=
  [0x30, 0x660, 0x6F0, 0x7C0, 0x966, 0x9E6, 0xA66, 0xAE6, 0xB66, 0xBE6, 0xC66, 0xCE6, 0xD66, 0xDE6,
    0xE50, 0xED0, 0xF20, 0x1040, 0x1090, 0x17E0, 0x1810, 0x1946, 0x19D0, 0x1A80, 0x1A90, 0x1B50,
    0x1BB0, 0x1C40, 0x1C50, 0xA620, 0xA8D0, 0xA900, 0xA9D0, 0xA9F0, 0xAA50, 0xABF0, 0xFF10, 0x104A0,
    0x10D30, 0x11066, 0x110F0, 0x11136, 0x111D0, 0x112F0, 0x11450, 0x114D0, 0x11650, 0x116C0,
    0x11730, 0x118E0, 0x11950, 0x11C50, 0x11D50, 0x11DA0, 0x16A60, 0x16AC0, 0x16B50, 0x1D7CE,
    0x1D7D8, 0x1D7E2, 0x1D7EC, 0x1D7F6, 0x1E140, 0x1E2F0, 0x1E950, 0x1FBF0]

def isDecimalDigit (c : Char) : Bool :=
  decimalZeros.any fun z => z ≤ c.toNat && c.toNat < z + 10

end MonkeySyntax.Text
