import MonkeySyntax.Json.Printer
import MonkeySyntax.Json.Reader

/-!
# Strings of a JSON text

Every character is read back from its escape, whatever is behind it: from one of the short escapes,
from itself, from a unit of sixteen bits or from a pair of surrogates. So a string is read back up
to its closing quote, and what is behind the quote is left.
-/

namespace MonkeySyntax.Json

theorem readUnit?_hexDigits {n : Nat} (h : n < 0x10000) (rest : List Char) :
    readUnit? (Text.hexDigits 4 n ++ rest) = some (n, rest) := by
  have hdigit : ∀ m, Text.hexValue? (Text.hexDigit (m % 16)) = some (m % 16) := fun m =>
    Text.hexValue?_hexDigit _ (Nat.mod_lt _ (by omega))
  have hvalue : ((n / 16 / 16 / 16 % 16 * 16 + n / 16 / 16 % 16) * 16 + n / 16 % 16) * 16 + n % 16 =
      n := by omega
  simp [Text.hexDigits, readUnit?, hdigit, hvalue]

/-- The code point of a character is no surrogate. -/
theorem toNat_lt_or_gt (c : Char) :
    c.toNat < 0xD800 ∨ 0xDFFF < c.toNat ∧ c.toNat < 0x110000 := c.valid

theorem readEscaped?_unit {c : Char} (h : c.toNat < 0x10000) (rest : List Char) :
    readEscaped? (Text.hexDigits 4 c.toNat ++ rest) = some (c, rest) := by
  have hscalar := toNat_lt_or_gt c
  have hhigh : isHighSurrogate c.toNat = false := by
    simp only [isHighSurrogate, Bool.and_eq_false_iff, decide_eq_false_iff_not]
    omega
  have hlow : isLowSurrogate c.toNat = false := by
    simp only [isLowSurrogate, Bool.and_eq_false_iff, decide_eq_false_iff_not]
    omega
  simp [readEscaped?, readUnit?_hexDigits h, hhigh, hlow]

/-- The two surrogates of a character beyond sixteen bits are joined. -/
theorem readEscaped?_pair {c : Char} (h : 0x10000 ≤ c.toNat) (rest : List Char) :
    readEscaped? (Text.hexDigits 4 (0xD800 + (c.toNat - 0x10000) / 0x400) ++
      (unitEscape (0xDC00 + (c.toNat - 0x10000) % 0x400) ++ rest)) = some (c, rest) := by
  have hscalar := toNat_lt_or_gt c
  obtain ⟨high, hhigh⟩ : ∃ n, n = 0xD800 + (c.toNat - 0x10000) / 0x400 := ⟨_, rfl⟩
  obtain ⟨low, hlow⟩ : ∃ n, n = 0xDC00 + (c.toNat - 0x10000) % 0x400 := ⟨_, rfl⟩
  have hjoin : 0x10000 + (high - 0xD800) * 0x400 + (low - 0xDC00) = c.toNat := by omega
  have hishigh : isHighSurrogate high = true := by
    simp only [isHighSurrogate, Bool.and_eq_true, decide_eq_true_eq]
    omega
  have hislow : isLowSurrogate low = true := by
    simp only [isLowSurrogate, Bool.and_eq_true, decide_eq_true_eq]
    omega
  have hread := readUnit?_hexDigits (n := high) (by omega)
  have hread' := readUnit?_hexDigits (n := low) (by omega)
  rw [← hhigh, ← hlow]
  simp [readEscaped?, unitEscape, hread, hread', hishigh, hislow, hjoin]

theorem readChar?_of_ne {c : Char} (hslash : c ≠ '\\') (hcontrol : ¬ c < ' ') (rest : List Char) :
    readChar? (c :: rest) = some (c, rest) := by
  unfold readChar?
  split <;> simp_all

/-- The characters that have an escape of two characters. -/
def shortEscaped : List Char := ['"', '\\', '\n', '\r', '\t', '\x08', '\x0c']

theorem escape_cases (c : Char) :
    c ∈ shortEscaped ∨ (c ∉ shortEscaped ∧ (' ' ≤ c ∧ c ≤ '~') ∧ escape c = [c]) ∨
      (c.toNat < 0x10000 ∧ escape c = unitEscape c.toNat) ∨
      0x10000 ≤ c.toNat ∧ escape c = unitEscape (0xD800 + (c.toNat - 0x10000) / 0x400) ++
        unitEscape (0xDC00 + (c.toNat - 0x10000) % 0x400) := by
  by_cases hshort : c ∈ shortEscaped
  · exact Or.inl hshort
  · right
    have hne := hshort
    simp only [shortEscaped, List.mem_cons, List.not_mem_nil, or_false, not_or] at hne
    by_cases hplain : ' ' ≤ c ∧ c ≤ '~'
    · exact Or.inl ⟨hshort, hplain, by simp [escape, hne, hplain]⟩
    · by_cases hunit : c.toNat < 0x10000
      · exact Or.inr (Or.inl ⟨hunit, by simp [escape, hne, hplain, hunit]⟩)
      · exact Or.inr (Or.inr ⟨Nat.le_of_not_lt hunit, by simp [escape, hne, hplain, hunit]⟩)

theorem readChar?_short {c : Char} (h : c ∈ shortEscaped) (rest : List Char) :
    readChar? (escape c ++ rest) = some (c, rest) := by
  simp only [shortEscaped, List.mem_cons, List.not_mem_nil, or_false] at h
  rcases h with rfl | rfl | rfl | rfl | rfl | rfl | rfl <;> rfl

/-- A character is read back from its escape. -/
theorem readChar?_escape (c : Char) (rest : List Char) :
    readChar? (escape c ++ rest) = some (c, rest) := by
  rcases escape_cases c with hshort | ⟨hshort, hprintable, hescape⟩ | ⟨hunit, hescape⟩ |
    ⟨hpair, hescape⟩
  · exact readChar?_short hshort rest
  · rw [hescape]
    refine readChar?_of_ne ?_ (Char.not_lt.mpr hprintable.1) rest
    rintro rfl
    exact hshort (by decide)
  · rw [hescape]
    exact readEscaped?_unit hunit rest
  · rw [hescape, List.append_assoc]
    exact readEscaped?_pair hpair rest

/-- No escape can be taken for the closing quote. -/
theorem exists_escape_eq_cons (c : Char) : ∃ d cs, escape c = d :: cs ∧ d ≠ '"' := by
  rcases escape_cases c with hshort | ⟨hshort, -, hescape⟩ | ⟨-, hescape⟩ | ⟨-, hescape⟩
  · simp only [shortEscaped, List.mem_cons, List.not_mem_nil, or_false] at hshort
    rcases hshort with rfl | rfl | rfl | rfl | rfl | rfl | rfl <;>
      exact ⟨_, _, rfl, by decide⟩
  · refine ⟨c, [], hescape, ?_⟩
    rintro rfl
    exact hshort (by decide)
  · exact ⟨_, _, hescape, by decide⟩
  · exact ⟨_, _, hescape, by decide⟩

theorem readChars?_of_ne_quote {d : Char} (h : d ≠ '"') (fuel : Nat) (cs : List Char) :
    readChars? (fuel + 1) (d :: cs) = (readChar? (d :: cs)).bind fun (c, rest) =>
      (readChars? fuel rest).bind fun (s, rest') => some (c :: s, rest') := by
  rw [readChars?]
  · rfl
  · simpa using h

/-- A string is read back up to its closing quote. -/
theorem readChars?_writeChars {cs rest : List Char} {fuel : Nat}
    (h : (writeChars cs rest).length ≤ fuel) :
    readChars? fuel (writeChars cs rest) = some (cs, rest) := by
  induction cs generalizing fuel with
  | nil =>
    cases fuel with
    | zero => simp [writeChars] at h
    | succ fuel => rfl
  | cons c cs ih =>
    obtain ⟨d, ds, hescape, hquote⟩ := exists_escape_eq_cons c
    have hread := readChar?_escape c (writeChars cs rest)
    rw [writeChars, hescape, List.cons_append] at h ⊢
    rw [hescape, List.cons_append] at hread
    cases fuel with
    | zero => simp at h
    | succ fuel =>
      have hrest : (writeChars cs rest).length ≤ fuel := by
        simp only [List.length_cons, List.length_append] at h
        omega
      simp only [readChars?_of_ne_quote hquote, hread, Option.bind_some, ih hrest]

end MonkeySyntax.Json
