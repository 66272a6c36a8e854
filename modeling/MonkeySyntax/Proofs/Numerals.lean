import MonkeySyntax.Grammar.Numeral

/-!
# Reading integer literals

The reader finds exactly the spellings of a numeral, and what it computes is the positional value.
Too many digits put a decimal literal out of range in any case. The main statement is what is read
from each string: the value of the numeral that it spells, if there is one, and nothing otherwise.
-/

namespace MonkeySyntax

namespace Numeral

open Grammar

/-! ## Digits -/

/-- What holds of the characters of a range by their places holds of each of them. -/
theorem of_between {P : Nat → Char → Prop} {a z : Char}
    (h : ∀ k ≤ z.toNat - a.toNat, P k (Char.ofNat (a.toNat + k))) {c : Char}
    (hc : a ≤ c ∧ c ≤ z) : P (c.toNat - a.toNat) c := by
  have hlow : a.toNat ≤ c.toNat := hc.1
  have hhigh : c.toNat ≤ z.toNat := hc.2
  have hplace := h (c.toNat - a.toNat) (by omega)
  rwa [Nat.add_sub_cancel' hlow, Char.ofNat_toNat] at hplace

theorem digitValue?_row : ∀ d < 16,
    "0123456789abcdef".toList[d]?.bind digitValue? = some d ∧
      "0123456789ABCDEF".toList[d]?.bind digitValue? = some d := by
  decide

theorem digitValue?_eq_some_iff {c : Char} {d : Nat} :
    digitValue? c = some d ↔ InRow d c := by
  constructor
  · intro h
    rw [digitValue?] at h
    split at h
    next hc =>
      obtain rfl := Option.some.inj h
      exact of_between (P := InRow) (by decide) hc
    split at h
    next hc =>
      obtain rfl := Option.some.inj h
      exact of_between (P := fun k => InRow (k + 10)) (by decide) hc
    split at h
    next hc =>
      obtain rfl := Option.some.inj h
      exact of_between (P := fun k => InRow (k + 10)) (by decide) hc
    · cases h
  · rintro (h | h)
    · have hd : d < 16 := (List.getElem?_eq_some_iff.mp h).1
      have hrow := (digitValue?_row d hd).1
      rwa [h, Option.bind_some] at hrow
    · have hd : d < 16 := (List.getElem?_eq_some_iff.mp h).1
      have hrow := (digitValue?_row d hd).2
      rwa [h, Option.bind_some] at hrow

theorem digit?_eq_some_iff {base : Nat} {c : Char} {d : Nat} :
    digit? base c = some d ↔ IsDigit base c d := by
  rw [digit?, Option.filter_eq_some_iff, digitValue?_eq_some_iff, decide_eq_true_iff, and_comm]
  rfl

theorem digit?_underscore (base : Nat) : digit? base '_' = none := rfl

/-! ## Groups of digits -/

theorem grouped_of_grouped? {base : Nat} {cs : List Char} {ds : List Nat}
    (h : grouped? base cs = some ds) : Grouped base cs ds := by
  fun_induction grouped? base cs generalizing ds with
  | case1 =>
    obtain rfl := Option.some.inj h
    exact .nil
  | case2 c cs ih =>
    simp only [Option.bind_eq_bind, Option.bind_eq_some_iff] at h
    obtain ⟨d, hd, ds, hds, hcons⟩ := h
    obtain rfl := Option.some.inj hcons
    exact .underscored (digit?_eq_some_iff.mp hd) (ih hds)
  | case3 c cs _ ih =>
    simp only [Option.bind_eq_bind, Option.bind_eq_some_iff] at h
    obtain ⟨d, hd, ds, hds, hcons⟩ := h
    obtain rfl := Option.some.inj hcons
    exact .digit (digit?_eq_some_iff.mp hd) (ih hds)

theorem grouped?_of_grouped {base : Nat} {cs : List Char} {ds : List Nat}
    (h : Grouped base cs ds) : grouped? base cs = some ds := by
  induction h with
  | nil => rfl
  | @digit c d cs ds hd _ ih =>
    have hdigit := digit?_eq_some_iff.mpr hd
    have hne : ∀ e es, c = '_' → cs = e :: es → False := by
      rintro _ _ rfl -
      rw [digit?_underscore] at hdigit
      cases hdigit
    rw [grouped?, hdigit, ih]
    · rfl
    · exact hne
  | underscored hd _ ih =>
    rw [grouped?, digit?_eq_some_iff.mpr hd, ih]
    rfl

theorem grouped?_eq_some_iff {base : Nat} {cs : List Char} {ds : List Nat} :
    grouped? base cs = some ds ↔ Grouped base cs ds :=
  ⟨grouped_of_grouped?, grouped?_of_grouped⟩

theorem based?_eq_some_iff {base base' : Nat} {cs : List Char} {ds : List Nat} :
    based? base cs = some (base', ds) ↔ base = base' ∧ Grouped base cs ds ∧ ds ≠ [] := by
  rw [based?, ← grouped?_eq_some_iff]
  cases grouped? base cs with
  | none => simp
  | some es =>
    cases es with
    | nil => simp
    | cons e es =>
      simp only [Option.some.injEq, Prod.mk.injEq]
      constructor
      · rintro ⟨rfl, rfl⟩
        exact ⟨rfl, rfl, by simp⟩
      · rintro ⟨rfl, rfl, -⟩
        exact ⟨rfl, rfl⟩

/-! ## Bodies -/

theorem eq_zero_of_isDigit {base : Nat} {c : Char} (h : IsDigit base c 0) : c = '0' := by
  rcases h.2 with h | h
  · exact (Option.some.inj h).symm
  · exact (Option.some.inj h).symm

theorem not_isDigit_underscore (base d : Nat) : ¬ IsDigit base '_' d := by
  rw [← digit?_eq_some_iff, digit?_underscore]
  simp

theorem body?_marked {mark : Char} {base : Nat} (h : (mark, base) ∈ marks) (cs : List Char) :
    body? ('0' :: mark :: cs) = based? base cs := by
  simp only [marks, List.mem_cons, Prod.mk.injEq, List.not_mem_nil, or_false] at h
  rcases h with ⟨rfl, rfl⟩ | ⟨rfl, rfl⟩ | ⟨rfl, rfl⟩ | ⟨rfl, rfl⟩ | ⟨rfl, rfl⟩ | ⟨rfl, rfl⟩ <;> rfl

theorem body?_unmarked {mark : Char} (h : ∀ base, (mark, base) ∉ marks) (cs : List Char) :
    body? ('0' :: mark :: cs) = based? 8 (mark :: cs) := by
  simp only [marks, List.mem_cons, Prod.mk.injEq, List.not_mem_nil, or_false, not_or] at h
  have hhex := h 16
  have hoctal := h 8
  have hbinary := h 2
  simp at hhex hoctal hbinary
  simp [body?, hhex, hoctal, hbinary]

theorem body?_decimal {c : Char} (hzero : c ≠ '0') (hline : c ≠ '_') (cs : List Char) :
    body? (c :: cs) = based? 10 (c :: cs) := by
  simp [body?, hzero, hline]

theorem digit?_mark : ∀ m ∈ marks, m.1 ≠ '_' ∧ digit? 8 m.1 = none := by
  decide

theorem not_grouped_mark {mark : Char} {base : Nat} (h : (mark, base) ∈ marks) (cs : List Char)
    (ds : List Nat) : ¬ Grouped 8 (mark :: cs) ds := by
  obtain ⟨hline, hmark⟩ := digit?_mark _ h
  rintro (_ | ⟨hd, -⟩)
  · rw [digit?_eq_some_iff.mpr hd] at hmark
    cases hmark
  · exact hline rfl

theorem body?_of_body {cs : List Char} {base : Nat} {ds : List Nat}
    (h : Body cs base ds) : body? cs = some (base, ds) := by
  cases h with
  | marked hmark hgroup hne =>
    rw [body?_marked hmark, based?_eq_some_iff]
    exact ⟨rfl, hgroup, hne⟩
  | @octal cs _ hgroup hne =>
    cases cs with
    | nil =>
      cases hgroup
      exact absurd rfl hne
    | cons c cs =>
      -- a letter that marks a base would be tried first, but is no octal digit
      have hunmarked : ∀ base, (c, base) ∉ marks := by
        intro base hmark
        exact not_grouped_mark hmark cs ds hgroup
      rw [body?_unmarked hunmarked, based?_eq_some_iff]
      exact ⟨rfl, hgroup, hne⟩
  | zero => rfl
  | @decimal c d cs ds hd hne hgroup =>
    have hzero : c ≠ '0' := by
      rintro rfl
      exact hne (Option.some.inj (digit?_eq_some_iff.mpr hd)).symm
    have hline : c ≠ '_' := by
      rintro rfl
      exact not_isDigit_underscore 10 d hd
    rw [body?_decimal hzero hline, based?_eq_some_iff]
    exact ⟨rfl, .digit hd hgroup, by simp⟩

theorem body_of_body? {cs : List Char} {base : Nat} {ds : List Nat}
    (h : body? cs = some (base, ds)) : Body cs base ds := by
  cases cs with
  | nil => cases h
  | cons c cs =>
    by_cases hzero : c = '0'
    · subst hzero
      cases cs with
      | nil =>
        cases h
        exact .zero
      | cons mark cs =>
        by_cases hmark : ∃ base, (mark, base) ∈ marks
        · obtain ⟨base', hmark⟩ := hmark
          rw [body?_marked hmark, based?_eq_some_iff] at h
          obtain ⟨rfl, hgroup, hne⟩ := h
          exact .marked hmark hgroup hne
        · rw [body?_unmarked (not_exists.mp hmark), based?_eq_some_iff] at h
          obtain ⟨rfl, hgroup, hne⟩ := h
          exact .octal hgroup hne
    · by_cases hline : c = '_'
      · subst hline
        cases h
      · rw [body?_decimal hzero hline, based?_eq_some_iff] at h
        obtain ⟨rfl, hgroup, -⟩ := h
        cases hgroup with
        | @digit _ d _ ds hd hgroup =>
          have hne : d ≠ 0 := by
            rintro rfl
            exact hzero (eq_zero_of_isDigit hd)
          exact .decimal hd hne hgroup
        | underscored => exact absurd rfl hline

/-! ## Literals -/

theorem body?_sign (cs : List Char) : body? ('+' :: cs) = none ∧ body? ('-' :: cs) = none := by
  constructor
  · cases cs <;> rfl
  · cases cs <;> rfl

theorem spells_of_ofChars? {cs : List Char} {n : Numeral} (h : ofChars? cs = some n) :
    Spells cs n := by
  revert h
  fun_cases ofChars? cs with
  | case1 cs =>
    intro h
    obtain ⟨⟨base, ds⟩, hbody, rfl⟩ := Option.map_eq_some_iff.mp h
    exact .minus (body_of_body? hbody)
  | case2 cs =>
    intro h
    obtain ⟨⟨base, ds⟩, hbody, rfl⟩ := Option.map_eq_some_iff.mp h
    exact .plus (body_of_body? hbody)
  | case3 =>
    intro h
    obtain ⟨⟨base, ds⟩, hbody, rfl⟩ := Option.map_eq_some_iff.mp h
    exact .plain (body_of_body? hbody)

theorem ofChars?_of_spells {cs : List Char} {n : Numeral} (h : Spells cs n) :
    ofChars? cs = some n := by
  cases h with
  | plus hbody | minus hbody =>
    rw [ofChars?, body?_of_body hbody]
    rfl
  | @plain cs base ds hbody =>
    have hread := body?_of_body hbody
    have hplus : ∀ es, cs ≠ '+' :: es := by
      rintro es rfl
      rw [(body?_sign es).1] at hread
      cases hread
    have hminus : ∀ es, cs ≠ '-' :: es := by
      rintro es rfl
      rw [(body?_sign es).2] at hread
      cases hread
    rw [ofChars?, hread]
    · rfl
    · exact hminus
    · exact hplus

/-- The reader finds a numeral exactly where it is spelled. -/
theorem ofChars?_eq_some_iff {cs : List Char} {n : Numeral} :
    ofChars? cs = some n ↔ Spells cs n :=
  ⟨spells_of_ofChars?, ofChars?_of_spells⟩

/-! ## Values -/

theorem magnitude_eq_ofDigits (n : Numeral) :
    n.magnitude = Nat.ofDigits n.base n.digits.reverse := by
  rw [magnitude, List.foldl_eq_foldr_reverse, Nat.ofDigits_eq_foldr]
  congr 1
  funext d acc
  simp [Nat.mul_comm, Nat.add_comm]

theorem value_eq_positional (n : Numeral) : n.value = positional n := by
  rw [value, positional, magnitude_eq_ofDigits]
  cases n.negative <;> simp

theorem overlong_iff {n : Numeral} : n.overlong ↔ n.base = 10 ∧ 4300 < n.digits.length := by
  rw [overlong, Bool.and_eq_true, beq_iff_eq, decide_eq_true_iff, OverlongNumeral.limit]

/-- A decimal numeral with many digits is a large number. -/
theorem pow_le_magnitude {cs : List Char} {ds : List Nat} (h : Body cs 10 ds)
    (hlength : 1 < ds.length) : 10 ^ (ds.length - 1) ≤ Nat.ofDigits 10 ds.reverse := by
  cases h with
  | marked hmark => simp [marks] at hmark
  | zero => simp at hlength
  | @decimal c d cs ds hd hne hgroup =>
    have hplace := Nat.ofDigits_reverse_cons (b := 10) ds d
    have hone : 10 ^ ds.length * 1 ≤ 10 ^ ds.length * d :=
      Nat.mul_le_mul_left _ (Nat.pos_of_ne_zero hne)
    rw [List.length_cons, Nat.add_sub_cancel]
    omega

theorem int64Min_eq : int64Min = -2 ^ 63 := rfl

theorem int64Max_eq : int64Max = 2 ^ 63 - 1 := rfl

theorem exists_body_of_spells {cs : List Char} {n : Numeral} (h : Spells cs n) :
    ∃ cs', Body cs' n.base n.digits := by
  cases h with
  | plain hbody | plus hbody | minus hbody => exact ⟨_, hbody⟩

/-- Too many decimal digits put a literal out of range. -/
theorem not_overlong {cs : List Char} {n : Numeral} (h : Spells cs n)
    (hmin : -2 ^ 63 ≤ positional n) (hmax : positional n ≤ 2 ^ 63 - 1) :
    ¬ (n.base = 10 ∧ 4300 < n.digits.length) := by
  rintro ⟨hbase, hlength⟩
  obtain ⟨cs', hbody⟩ := exists_body_of_spells h
  rw [hbase] at hbody
  have hlarge := pow_le_magnitude hbody (by omega)
  have hpow : 10 ^ 19 ≤ 10 ^ (n.digits.length - 1) := Nat.pow_le_pow_right (by omega) (by omega)
  cases hsign : n.negative with
  | false =>
    rw [positional, hbase, hsign] at hmax
    simp only [Bool.false_eq_true, if_false] at hmax
    omega
  | true =>
    rw [positional, hbase, hsign] at hmin
    simp only [if_true] at hmin
    omega

end Numeral

theorem range_of_readInt64 {literal : String} {v : Int} (h : readInt64 literal = .ok (some v)) :
    -2 ^ 63 ≤ v ∧ v ≤ 2 ^ 63 - 1 := by
  rw [readInt64] at h
  split at h
  · cases h
  · split at h
    · cases h
    · split at h
      next hrange =>
        obtain rfl := Option.some.inj (Except.ok.inj h)
        exact hrange
      · cases h

open Grammar Numeral in
/-- What is read from a string: the positional value of the numeral that it spells, where that is a
64-bit integer and has not too many decimal digits, and nothing from any other string. -/
theorem readInt64_spelled (s : String) :
    (∀ n, Spells s.toList n →
      readInt64 s =
        if n.base = 10 ∧ 4300 < n.digits.length then .error ⟨n.digits.length⟩
        else if -2 ^ 63 ≤ positional n ∧ positional n ≤ 2 ^ 63 - 1 then .ok (some (positional n))
        else .ok none) ∧
      ((∀ n, ¬ Spells s.toList n) → readInt64 s = .ok none) ∧
      ∀ n, Spells s.toList n → -2 ^ 63 ≤ positional n → positional n ≤ 2 ^ 63 - 1 →
        readInt64 s = .ok (some (positional n)) := by
  have hspelled : ∀ n, Spells s.toList n →
      readInt64 s =
        if n.base = 10 ∧ 4300 < n.digits.length then .error ⟨n.digits.length⟩
        else if -2 ^ 63 ≤ positional n ∧ positional n ≤ 2 ^ 63 - 1 then .ok (some (positional n))
        else .ok none := by
    intro n hn
    rw [readInt64, ofChars?_eq_some_iff.mpr hn]
    simp only [overlong_iff, value_eq_positional, int64Min_eq, int64Max_eq]
  refine ⟨hspelled, ?_, ?_⟩
  · intro hnone
    have hread : ofChars? s.toList = none := by
      rw [Option.eq_none_iff_forall_ne_some]
      intro n hn
      exact hnone n (ofChars?_eq_some_iff.mp hn)
    rw [readInt64, hread]
  · intro n hn hmin hmax
    rw [hspelled n hn, if_neg (not_overlong hn hmin hmax), if_pos ⟨hmin, hmax⟩]

/-- The range of the values is not symmetric. -/
example :
    readInt64 "-0X_8000000000000000" = .ok (some (-2 ^ 63)) ∧
      readInt64 "0X_8000000000000000" = .ok none := ⟨rfl, rfl⟩

end MonkeySyntax
