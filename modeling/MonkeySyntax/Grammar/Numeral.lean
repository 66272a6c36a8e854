import Mathlib.Data.Nat.Digits.Defs
import MonkeySyntax.Numeral

/-!
# The syntax of integer literals

How a numeral may be spelled, and the number that it denotes, both without a reader: a literal is a
sign, a base that is marked or not, and digits of that base, and each digit counts as often as its
place says.
-/

namespace MonkeySyntax.Grammar

/-- The character stands at the given place of one of the two rows of digits. -/
def InRow (d : Nat) (c : Char) : Prop :=
  "0123456789abcdef".toList[d]? = some c ∨ "0123456789ABCDEF".toList[d]? = some c

instance (d : Nat) (c : Char) : Decidable (InRow d c) := inferInstanceAs (Decidable (_ ∨ _))

def IsDigit (base : Nat) (c : Char) (d : Nat) : Prop := d < base ∧ InRow d c

/-- Digits, with one underscore before any of them or none. -/
inductive Grouped (base : Nat) : List Char → List Nat → Prop
  | nil : Grouped base [] []
  | digit {c : Char} {d : Nat} {cs : List Char} {ds : List Nat} :
    IsDigit base c d → Grouped base cs ds → Grouped base (c :: cs) (d :: ds)
  | underscored {c : Char} {d : Nat} {cs : List Char} {ds : List Nat} :
    IsDigit base c d → Grouped base cs ds → Grouped base ('_' :: c :: cs) (d :: ds)

/-- The letters behind a zero that name a base. -/
def marks : List (Char × Nat) := [('x', 16), ('X', 16), ('o', 8), ('O', 8), ('b', 2), ('B', 2)]

/-- A literal without its sign, with its base and its digits. -/
inductive Body : List Char → Nat → List Nat → Prop
  | marked {mark : Char} {base : Nat} {cs : List Char} {ds : List Nat} :
    (mark, base) ∈ marks → Grouped base cs ds → ds ≠ [] → Body ('0' :: mark :: cs) base ds
  | octal {cs : List Char} {ds : List Nat} :
    Grouped 8 cs ds → ds ≠ [] → Body ('0' :: cs) 8 ds
  | zero : Body ['0'] 10 [0]
  | decimal {c : Char} {d : Nat} {cs : List Char} {ds : List Nat} :
    IsDigit 10 c d → d ≠ 0 → Grouped 10 cs ds → Body (c :: cs) 10 (d :: ds)

inductive Spells : List Char → Numeral → Prop
  | plain {cs : List Char} {base : Nat} {ds : List Nat} :
    Body cs base ds → Spells cs ⟨false, base, ds⟩
  | plus {cs : List Char} {base : Nat} {ds : List Nat} :
    Body cs base ds → Spells ('+' :: cs) ⟨false, base, ds⟩
  | minus {cs : List Char} {base : Nat} {ds : List Nat} :
    Body cs base ds → Spells ('-' :: cs) ⟨true, base, ds⟩

/-- The signed positional value. -/
def positional (n : Numeral) : Int :=
  (if n.negative then -1 else 1) * (Nat.ofDigits n.base n.digits.reverse : Nat)

/-- An underscore may stand between the mark of a base and the first digit. -/
example : Spells "-0X_ff".toList ⟨true, 16, [15, 15]⟩ ∧ positional ⟨true, 16, [15, 15]⟩ = -255 := by
  have hf : IsDigit 16 'f' 15 := ⟨by decide, by decide⟩
  constructor
  · exact .minus (.marked (by decide) (.underscored hf (.digit hf .nil)) (by decide))
  · rfl

end MonkeySyntax.Grammar
