import MonkeySyntax.Proofs.Json.Strings

/-!
# Values of a JSON text

A written value is read back, in either layout and at any depth, and what is behind it is left. The
reader passes over the blanks of a layout, and needs no more fuel than the text is long. The main
statement is that the whole text of a value is read as that value.
-/

namespace MonkeySyntax.Json

variable {l : Layout}

/-! ## Blanks -/

theorem isSpace_of_mem_lineBreak {depth : Nat} : ∀ c ∈ l.lineBreak depth, isSpace c := by
  cases l with
  | compact => simp [Layout.lineBreak]
  | indented =>
    intro c hc
    rcases List.mem_cons.mp hc with rfl | hc
    · rfl
    · obtain rfl := List.eq_of_mem_replicate hc
      rfl

theorem dropWhile_lineBreak (l : Layout) (depth : Nat) (cs : List Char) :
    (l.lineBreak depth ++ cs).dropWhile isSpace = cs.dropWhile isSpace :=
  List.dropWhile_append_of_pos isSpace_of_mem_lineBreak

theorem exists_separator_eq_cons (l : Layout) (depth : Nat) :
    ∃ blanks, l.separator depth = ',' :: blanks ∧ ∀ c ∈ blanks, isSpace c := by
  cases l with
  | compact => exact ⟨[' '], rfl, List.forall_mem_singleton.mpr rfl⟩
  | indented => exact ⟨_, rfl, isSpace_of_mem_lineBreak⟩

theorem readValue?_blanks {blanks : List Char} (h : ∀ c ∈ blanks, isSpace c) (fuel : Nat)
    (cs : List Char) : readValue? fuel (blanks ++ cs) = readValue? fuel cs := by
  cases fuel with
  | zero => rfl
  | succ fuel => rw [readValue?, readValue?, List.dropWhile_append_of_pos h]

theorem readField?_blanks {blanks : List Char} (h : ∀ c ∈ blanks, isSpace c) (fuel : Nat)
    (cs : List Char) : readField? fuel (blanks ++ cs) = readField? fuel cs := by
  cases fuel with
  | zero => rfl
  | succ fuel => rw [readField?, readField?, List.dropWhile_append_of_pos h]

/-! ## Numbers -/

/-- A number in front of the text could not be longer. -/
def EndsNumber (rest : List Char) : Prop := ∀ c ∈ rest.head?, c.isDigit = false

theorem readNat?_decimal (n : Nat) {rest : List Char} (h : EndsNumber rest) :
    readNat? (Text.decimal n ++ rest) = some (n, rest) := by
  have hdigits := Text.isDigit_of_mem_decimal n
  have hvalue := Text.foldl_decimal n
  have htake : (Text.decimal n ++ rest).takeWhile Char.isDigit = Text.decimal n := by
    rw [List.takeWhile_append_of_pos hdigits]
    cases rest with
    | nil => simp
    | cons c rest => simp [h c rfl]
  have hdrop : (Text.decimal n ++ rest).dropWhile Char.isDigit = rest := by
    rw [List.dropWhile_append_of_pos hdigits]
    cases rest with
    | nil => rfl
    | cons c rest => simp [h c rfl]
  rw [readNat?, htake, hdrop]
  split
  · rename_i hnil
    exact absurd hnil (Text.decimal_ne_nil n)
  · rename_i hzero
    by_cases hn : n = 0
    · rw [hn, Text.decimal_of_lt (by decide)] at hzero
      cases hzero
    · have hhead := Text.head?_decimal_ne_zero hn
      rw [hzero] at hhead
      exact absurd rfl hhead
  · rw [hvalue]

/-- A number starts with a digit or a minus sign. -/
theorem exists_signedDecimal_eq_cons (i : Int) :
    ∃ c cs, Text.signedDecimal i = c :: cs ∧ (c.isDigit ∨ c = '-') := by
  unfold Text.signedDecimal
  split
  · exact ⟨_, _, rfl, Or.inr rfl⟩
  · obtain ⟨c, cs, hcons⟩ := List.exists_cons_of_ne_nil (Text.decimal_ne_nil i.natAbs)
    have hdigit := Text.isDigit_of_mem_decimal i.natAbs c (by simp [hcons])
    exact ⟨c, cs, hcons, Or.inl hdigit⟩

theorem readInt?_signedDecimal (i : Int) {rest : List Char} (h : EndsNumber rest) :
    readInt? (Text.signedDecimal i ++ rest) = some (i, rest) := by
  have hnat := readNat?_decimal i.natAbs h
  unfold Text.signedDecimal
  split
  · have hvalue : -(i.natAbs : Int) = i := by omega
    simp only [List.cons_append, readInt?, hnat, Option.map_some, hvalue]
  · obtain ⟨c, cs, hcons⟩ := List.exists_cons_of_ne_nil (Text.decimal_ne_nil i.natAbs)
    have hdigit := Text.isDigit_of_mem_decimal i.natAbs c (by simp [hcons])
    have hvalue : (i.natAbs : Int) = i := by omega
    rw [readInt?]
    · simp only [hnat, Option.map_some, hvalue]
    · intro cs' heq
      rw [hcons] at heq
      obtain rfl := (List.cons.inj heq).1
      cases hdigit

/-! ## The front of a written value -/

theorem isSpace_of_isDigit {c : Char} (h : c.isDigit) : isSpace c = false := by
  rw [Bool.eq_false_iff]
  intro hspace
  simp only [isSpace, Bool.or_eq_true, beq_iff_eq] at hspace
  rcases hspace with ((rfl | rfl) | rfl) | rfl <;> cases h

/-- A written value starts with a character that is no blank and closes nothing. -/
theorem exists_write_eq_cons (l : Layout) (depth : Nat) (v : Value) (rest : List Char) :
    ∃ c cs, write l depth v rest = c :: cs ∧ isSpace c = false ∧ c ≠ ']' := by
  cases v with
  | null => exact ⟨_, _, rfl, rfl, by decide⟩
  | int i =>
    obtain ⟨c, cs, hcons, hc⟩ := exists_signedDecimal_eq_cons i
    refine ⟨c, cs ++ rest, by rw [write, hcons, List.cons_append], ?_, ?_⟩
    · rcases hc with hc | rfl
      · exact isSpace_of_isDigit hc
      · rfl
    · rintro rfl
      rcases hc with hc | hc <;> cases hc
  | string s => exact ⟨_, _, rfl, rfl, by decide⟩
  | array vs => cases vs <;> exact ⟨_, _, rfl, rfl, by decide⟩
  | object fs => cases fs <;> exact ⟨_, _, rfl, rfl, by decide⟩

theorem endsNumber_close (depth : Nat) {c : Char} (hc : c.isDigit = false) (rest : List Char) :
    EndsNumber (l.lineBreak depth ++ c :: rest) := by
  intro d hd
  cases l with
  | compact =>
    obtain rfl := Option.some.inj hd
    exact hc
  | indented =>
    obtain rfl := Option.some.inj hd
    rfl

theorem endsNumber_separator (depth : Nat) (rest : List Char) :
    EndsNumber (l.separator depth ++ rest) := by
  intro d hd
  obtain ⟨blanks, hblanks, -⟩ := exists_separator_eq_cons l depth
  rw [hblanks] at hd
  obtain rfl := Option.some.inj hd
  rfl

theorem endsNumber_writeItems (depth : Nat) (vs : List Value) {rest : List Char}
    (h : EndsNumber rest) : EndsNumber (writeItems l depth vs rest) := by
  cases vs with
  | nil => exact h
  | cons v vs => exact endsNumber_separator depth _

theorem endsNumber_writeFields (depth : Nat) (fs : List (String × Value)) {rest : List Char}
    (h : EndsNumber rest) : EndsNumber (writeFields l depth fs rest) := by
  cases fs with
  | nil => exact h
  | cons f fs => exact endsNumber_separator depth _

/-! ## The length of a written value -/

theorem length_lt_writeChars (cs rest : List Char) :
    rest.length < (writeChars cs rest).length := by
  induction cs with
  | nil => simp [writeChars]
  | cons c cs ih =>
    simp only [writeChars, List.length_append]
    omega

theorem length_lt_writeString (k : String) (rest : List Char) :
    rest.length < (writeString k rest).length := by
  have hchars := length_lt_writeChars k.toList rest
  simp only [writeString, List.length_cons]
  omega

theorem length_le_writeItems {vs : List Value} (depth : Nat)
    (h : ∀ v ∈ vs, ∀ depth rest, rest.length ≤ (write l depth v rest).length) (rest : List Char) :
    rest.length ≤ (writeItems l depth vs rest).length := by
  induction vs with
  | nil => exact Nat.le_refl _
  | cons v vs ih =>
    obtain ⟨hv, hvs⟩ := List.forall_mem_cons.mp h
    have hfirst := hv depth (writeItems l depth vs rest)
    have hrest := ih hvs
    simp only [writeItems, List.length_append]
    omega

theorem length_le_writeFields {fs : List (String × Value)} (depth : Nat)
    (h : ∀ f ∈ fs, ∀ depth rest, rest.length ≤ (write l depth f.2 rest).length)
    (rest : List Char) : rest.length ≤ (writeFields l depth fs rest).length := by
  induction fs with
  | nil => exact Nat.le_refl _
  | cons f fs ih =>
    obtain ⟨k, v⟩ := f
    obtain ⟨hv, hfs⟩ := List.forall_mem_cons.mp h
    have hfirst := hv depth (writeFields l depth fs rest)
    have hkey := length_lt_writeString k
      (':' :: ' ' :: write l depth v (writeFields l depth fs rest))
    have hrest := ih hfs
    simp only [writeFields, List.length_append, List.length_cons] at hfirst hkey ⊢
    omega

/-- A text is not shorter than what is behind the value. -/
theorem length_le_write (l : Layout) (depth : Nat) (v : Value) (rest : List Char) :
    rest.length ≤ (write l depth v rest).length := by
  induction v generalizing depth rest with
  | null =>
    simp only [write, List.length_cons]
    omega
  | int i =>
    simp only [write, List.length_append]
    omega
  | string s => exact Nat.le_of_lt (length_lt_writeString s rest)
  | array vs ih =>
    cases vs with
    | nil =>
      simp only [write, List.length_cons]
      omega
    | cons v vs =>
      obtain ⟨hv, hvs⟩ := List.forall_mem_cons.mp ih
      have hitems := length_le_writeItems (depth + 1) hvs
        (l.lineBreak depth ++ ']' :: rest)
      have hfirst := hv (depth + 1)
        (writeItems l (depth + 1) vs (l.lineBreak depth ++ ']' :: rest))
      simp only [write, List.length_cons, List.length_append] at hitems ⊢
      omega
  | object fs ih =>
    cases fs with
    | nil =>
      simp only [write, List.length_cons]
      omega
    | cons f fs =>
      obtain ⟨k, v⟩ := f
      obtain ⟨hv, hfs⟩ := List.forall_mem_cons.mp ih
      have hfields := length_le_writeFields (depth + 1) hfs
        (l.lineBreak depth ++ '\x7d' :: rest)
      have hfirst := hv (depth + 1)
        (writeFields l (depth + 1) fs (l.lineBreak depth ++ '\x7d' :: rest))
      have hkey := length_lt_writeString k (':' :: ' ' :: write l (depth + 1) v
        (writeFields l (depth + 1) fs (l.lineBreak depth ++ '\x7d' :: rest)))
      simp only [write, List.length_cons, List.length_append] at hfields hfirst hkey ⊢
      omega

/-! ## Reading a written value -/

/-- The value is read back with as much fuel as its text is long. -/
def ReadsBack (l : Layout) (v : Value) : Prop :=
  ∀ depth fuel rest, EndsNumber rest → (write l depth v rest).length ≤ fuel →
    readValue? fuel (write l depth v rest) = some (v, rest)

theorem readsBack_null : ReadsBack l .null := by
  intro depth fuel rest _ hfuel
  cases fuel with
  | zero => cases hfuel
  | succ fuel => rfl

theorem readValue?_number {c : Char} (hc : c.isDigit ∨ c = '-') (fuel : Nat) (cs : List Char) :
    readValue? (fuel + 1) (c :: cs) =
      (readInt? (c :: cs)).map fun (i, rest) => (.int i, rest) := by
  have hspace : isSpace c = false := by
    rcases hc with hc | rfl
    · exact isSpace_of_isDigit hc
    · rfl
  rw [readValue?, List.dropWhile_cons, hspace]
  simp only [Bool.false_eq_true, if_false]
  split
  all_goals first
    | rfl
    | (rename_i heq; obtain rfl := (List.cons.inj heq).1; rcases hc with hc | hc <;> cases hc)

theorem readsBack_int (i : Int) : ReadsBack l (.int i) := by
  intro depth fuel rest hrest hfuel
  have hread := readInt?_signedDecimal i hrest
  obtain ⟨c, cs, hcons, hc⟩ := exists_signedDecimal_eq_cons i
  rw [write, hcons, List.cons_append] at hfuel ⊢
  rw [hcons, List.cons_append] at hread
  cases fuel with
  | zero => cases hfuel
  | succ fuel => rw [readValue?_number hc, hread, Option.map_some]

theorem readsBack_string (s : String) : ReadsBack l (.string s) := by
  intro depth fuel rest _ hfuel
  rw [write, writeString] at hfuel ⊢
  cases fuel with
  | zero => cases hfuel
  | succ fuel =>
    have hread := readChars?_writeChars (Nat.le_of_succ_le_succ hfuel)
    have hquote : isSpace '"' = false := rfl
    rw [readValue?, List.dropWhile_cons, hquote]
    simp [hread]

theorem readItems?_writeItems {vs : List Value} (h : ∀ v ∈ vs, ReadsBack l v)
    (inner outer fuel : Nat) (rest : List Char)
    (hfuel : (writeItems l inner vs (l.lineBreak outer ++ ']' :: rest)).length ≤ fuel) :
    readItems? fuel (writeItems l inner vs (l.lineBreak outer ++ ']' :: rest)) =
      some (vs, rest) := by
  induction vs generalizing fuel with
  | nil =>
    rw [writeItems] at hfuel ⊢
    cases fuel with
    | zero => simp at hfuel
    | succ fuel =>
      rw [readItems?, dropWhile_lineBreak]
      rfl
  | cons v vs ih =>
    obtain ⟨hv, hvs⟩ := List.forall_mem_cons.mp h
    obtain ⟨blanks, hseparator, hblanks⟩ := exists_separator_eq_cons l inner
    have hends := endsNumber_writeItems (l := l) inner vs
      (endsNumber_close (l := l) outer (c := ']') rfl rest)
    have hlength := length_le_write l inner v
      (writeItems l inner vs (l.lineBreak outer ++ ']' :: rest))
    rw [writeItems, hseparator] at hfuel ⊢
    simp only [List.cons_append, List.length_cons, List.length_append] at hfuel hlength
    cases fuel with
    | zero => omega
    | succ fuel =>
      have hfirst := hv inner fuel _ hends (by omega)
      have hrest := ih hvs fuel (by omega)
      have hcomma : isSpace ',' = false := rfl
      rw [readItems?, List.cons_append, List.dropWhile_cons, hcomma]
      simp [readValue?_blanks hblanks, hfirst, hrest]

theorem readsBack_array {vs : List Value} (h : ∀ v ∈ vs, ReadsBack l v) :
    ReadsBack l (.array vs) := by
  intro depth fuel rest _ hfuel
  cases fuel with
  | zero => cases vs <;> cases hfuel
  | succ fuel =>
    have hbracket : isSpace '[' = false := rfl
    cases vs with
    | nil => rfl
    | cons v vs =>
      obtain ⟨hv, hvs⟩ := List.forall_mem_cons.mp h
      have hends := endsNumber_writeItems (l := l) (depth + 1) vs
        (endsNumber_close (l := l) depth (c := ']') rfl rest)
      have hlength := length_le_write l (depth + 1) v
        (writeItems l (depth + 1) vs (l.lineBreak depth ++ ']' :: rest))
      rw [write, List.length_cons, List.length_append] at hfuel
      have hfirst := hv (depth + 1) fuel _ hends (by omega)
      have hrest := readItems?_writeItems hvs (depth + 1) depth fuel rest (by omega)
      obtain ⟨c, cs, hcons, hspace, hclose⟩ := exists_write_eq_cons l (depth + 1) v
        (writeItems l (depth + 1) vs (l.lineBreak depth ++ ']' :: rest))
      rw [write, readValue?, List.dropWhile_cons, hbracket]
      simp only [Bool.false_eq_true, if_false, dropWhile_lineBreak, hcons, List.dropWhile_cons,
        hspace]
      rw [hcons] at hfirst
      split
      · rename_i heq
        exact absurd (List.cons.inj heq).1 hclose
      · simp [hfirst, hrest]

theorem readField?_writeString {k : String} {v : Value} (h : ReadsBack l v) (depth fuel : Nat)
    {rest : List Char} (hrest : EndsNumber rest)
    (hfuel : (writeString k (':' :: ' ' :: write l depth v rest)).length ≤ fuel) :
    readField? fuel (writeString k (':' :: ' ' :: write l depth v rest)) = some ((k, v), rest) := by
  have hkey := length_lt_writeChars k.toList (':' :: ' ' :: write l depth v rest)
  rw [writeString, List.length_cons] at hfuel
  simp only [List.length_cons] at hkey
  cases fuel with
  | zero => omega
  | succ fuel =>
    have hquote : isSpace '"' = false := rfl
    have hcolon : isSpace ':' = false := rfl
    have hblank : ∀ c ∈ [' '], isSpace c := List.forall_mem_singleton.mpr rfl
    have hchars : readChars? fuel (writeChars k.toList (':' :: ' ' :: write l depth v rest)) =
        some (k.toList, ':' :: ' ' :: write l depth v rest) :=
      readChars?_writeChars (by omega)
    have hvalue : readValue? fuel (' ' :: write l depth v rest) = some (v, rest) := by
      have hread := h depth fuel rest hrest (by omega)
      rw [← hread]
      exact readValue?_blanks hblank fuel _
    rw [writeString, readField?, List.dropWhile_cons, hquote]
    simp [hchars, hcolon, hvalue]

theorem readFields?_writeFields {fs : List (String × Value)} (h : ∀ f ∈ fs, ReadsBack l f.2)
    (inner outer fuel : Nat) (rest : List Char)
    (hfuel : (writeFields l inner fs (l.lineBreak outer ++ '\x7d' :: rest)).length ≤ fuel) :
    readFields? fuel (writeFields l inner fs (l.lineBreak outer ++ '\x7d' :: rest)) =
      some (fs, rest) := by
  induction fs generalizing fuel with
  | nil =>
    rw [writeFields] at hfuel ⊢
    cases fuel with
    | zero => simp at hfuel
    | succ fuel =>
      rw [readFields?, dropWhile_lineBreak]
      rfl
  | cons f fs ih =>
    obtain ⟨k, v⟩ := f
    obtain ⟨hv, hfs⟩ : ReadsBack l v ∧ ∀ g ∈ fs, ReadsBack l g.2 := List.forall_mem_cons.mp h
    obtain ⟨blanks, hseparator, hblanks⟩ := exists_separator_eq_cons l inner
    have hends := endsNumber_writeFields (l := l) inner fs
      (endsNumber_close (l := l) outer (c := '\x7d') rfl rest)
    have hlength := length_le_write l inner v
      (writeFields l inner fs (l.lineBreak outer ++ '\x7d' :: rest))
    have hkey := length_lt_writeString k (':' :: ' ' :: write l inner v
      (writeFields l inner fs (l.lineBreak outer ++ '\x7d' :: rest)))
    rw [writeFields, hseparator] at hfuel ⊢
    simp only [List.cons_append, List.length_cons, List.length_append] at hfuel hlength hkey
    cases fuel with
    | zero => omega
    | succ fuel =>
      have hfirst := readField?_writeString (k := k) hv inner fuel hends
        (by omega)
      have hrest := ih hfs fuel (by omega)
      have hcomma : isSpace ',' = false := rfl
      rw [readFields?, List.cons_append, List.dropWhile_cons, hcomma]
      simp [readField?_blanks hblanks, hfirst, hrest]

theorem readsBack_object {fs : List (String × Value)} (h : ∀ f ∈ fs, ReadsBack l f.2) :
    ReadsBack l (.object fs) := by
  intro depth fuel rest _ hfuel
  cases fuel with
  | zero => cases fs <;> cases hfuel
  | succ fuel =>
    have hbrace : isSpace '\x7b' = false := rfl
    have hquote : isSpace '"' = false := rfl
    cases fs with
    | nil => rfl
    | cons f fs =>
      obtain ⟨k, v⟩ := f
      obtain ⟨hv, hfs⟩ : ReadsBack l v ∧ ∀ g ∈ fs, ReadsBack l g.2 := List.forall_mem_cons.mp h
      have hends := endsNumber_writeFields (l := l) (depth + 1) fs
        (endsNumber_close (l := l) depth (c := '\x7d') rfl rest)
      have hlength := length_le_write l (depth + 1) v
        (writeFields l (depth + 1) fs (l.lineBreak depth ++ '\x7d' :: rest))
      have hkey := length_lt_writeString k (':' :: ' ' :: write l (depth + 1) v
        (writeFields l (depth + 1) fs (l.lineBreak depth ++ '\x7d' :: rest)))
      rw [write, List.length_cons, List.length_append] at hfuel
      simp only [List.length_cons] at hkey
      have hfirst := readField?_writeString (k := k) hv (depth + 1) fuel hends
        (by omega)
      have hrest := readFields?_writeFields hfs (depth + 1) depth fuel rest (by omega)
      rw [write, readValue?, List.dropWhile_cons, hbrace]
      simp only [Bool.false_eq_true, if_false, dropWhile_lineBreak]
      rw [writeString] at hfirst ⊢
      simp [hquote, hfirst, hrest]

/-- Every value is read back from its text, and what is behind it is left. -/
theorem readsBack (l : Layout) (v : Value) : ReadsBack l v := by
  induction v with
  | null => exact readsBack_null
  | int i => exact readsBack_int i
  | string s => exact readsBack_string s
  | array vs ih => exact readsBack_array ih
  | object fs ih => exact readsBack_object ih

/-- The whole text of a value, in either layout, is read as that value. -/
theorem read?_print (l : Layout) (v : Value) : read? (v.print l) = some v := by
  have hends : EndsNumber [] := by simp [EndsNumber]
  have hlength : (write l 0 v []).length ≤ (v.print l).length + 1 := by
    simp [Value.print, ← String.length_toList]
  have hread := readsBack l v 0 _ [] hends hlength
  rw [read?, Value.print, String.toList_ofList, ← Value.print, hread]
  rfl

theorem print_inj {l : Layout} {v w : Value} : v.print l = w.print l ↔ v = w := by
  constructor
  · intro h
    have hread := read?_print l v
    rw [h, read?_print] at hread
    exact (Option.some.inj hread).symm
  · rintro rfl
    rfl

end MonkeySyntax.Json
