import MonkeySyntax.Proofs.Json.Values
import MonkeySyntax.Session

/-!
# Records as texts

A tree is shown as the text of its record, over many lines or, in a verbose session, on one line.
Such a text holds nothing but printable ASCII and, between its lines, line feeds. The main statement
is that both texts are read back as the record, whatever the tree holds, so that trees have one text
exactly if they have one record.
-/

namespace MonkeySyntax

namespace Json

variable {l : Layout}

/-! ## The characters of a text -/

/-- Printable ASCII throughout, and line feeds where the layout has lines. -/
def Printed (l : Layout) (cs : List Char) : Prop :=
  ∀ c ∈ cs, (' ' ≤ c ∧ c ≤ '~') ∨ (l = .indented ∧ c = '\n')

theorem Printed.append {cs ds : List Char} (hc : Printed l cs) (hd : Printed l ds) :
    Printed l (cs ++ ds) := List.forall_mem_append.mpr ⟨hc, hd⟩

theorem Printed.cons {c : Char} {cs : List Char} (hc : ' ' ≤ c ∧ c ≤ '~') (h : Printed l cs) :
    Printed l (c :: cs) := List.forall_mem_cons.mpr ⟨Or.inl hc, h⟩

theorem printed_nil : Printed l [] := by simp [Printed]

theorem printed_lineBreak (l : Layout) (depth : Nat) : Printed l (l.lineBreak depth) := by
  intro c hc
  cases l with
  | compact => cases hc
  | indented =>
    rcases List.mem_cons.mp hc with rfl | hc
    · exact Or.inr ⟨rfl, rfl⟩
    · obtain rfl := List.eq_of_mem_replicate hc
      exact Or.inl (by decide)

theorem printed_separator (l : Layout) (depth : Nat) : Printed l (l.separator depth) := by
  cases l with
  | compact => exact .cons (by decide) (.cons (by decide) printed_nil)
  | indented => exact .cons (by decide) (printed_lineBreak _ depth)

theorem printable_hexDigit : ∀ n < 16, ' ' ≤ Text.hexDigit n ∧ Text.hexDigit n ≤ '~' := by
  decide

theorem printed_hexDigits (width n : Nat) : Printed l (Text.hexDigits width n) := by
  induction width generalizing n with
  | zero => exact printed_nil
  | succ width ih =>
    have hlast : n % 16 < 16 := by omega
    exact (ih (n / 16)).append (.cons (printable_hexDigit _ hlast) printed_nil)

theorem printed_unitEscape (n : Nat) : Printed l (unitEscape n) :=
  .cons (by decide) (.cons (by decide) (printed_hexDigits 4 n))

theorem printed_escape (c : Char) : Printed l (escape c) := by
  rcases escape_cases c with hshort | ⟨-, hprintable, hescape⟩ | ⟨-, hescape⟩ | ⟨-, hescape⟩
  · simp only [shortEscaped, List.mem_cons, List.not_mem_nil, or_false] at hshort
    rcases hshort with rfl | rfl | rfl | rfl | rfl | rfl | rfl <;>
      exact .cons (by decide) (.cons (by decide) printed_nil)
  · rw [hescape]
    exact .cons hprintable printed_nil
  · rw [hescape]
    exact printed_unitEscape _
  · rw [hescape]
    exact (printed_unitEscape _).append (printed_unitEscape _)

theorem printed_writeString (s : String) {rest : List Char} (h : Printed l rest) :
    Printed l (writeString s rest) := by
  have hchars : ∀ cs, Printed l (writeChars cs rest) := by
    intro cs
    induction cs with
    | nil => exact .cons (by decide) h
    | cons c cs ih => exact (printed_escape c).append ih
  exact .cons (by decide) (hchars s.toList)

theorem printed_signedDecimal (i : Int) : Printed l (Text.signedDecimal i) := by
  have hdigits : Printed l (Text.decimal i.natAbs) := by
    intro c hc
    have hdigit := Text.isDigit_of_mem_decimal _ c hc
    simp only [Char.isDigit, Bool.and_eq_true, decide_eq_true_eq] at hdigit
    have hlow : ' ' ≤ '0' := by decide
    have hhigh : '9' ≤ '~' := by decide
    exact Or.inl ⟨Char.le_trans hlow hdigit.1, Char.le_trans hdigit.2 hhigh⟩
  rw [Text.signedDecimal]
  split
  · exact .cons (by decide) hdigits
  · exact hdigits

theorem printed_writeItems {vs : List Value}
    (h : ∀ v ∈ vs, ∀ (depth : Nat) {rest : List Char}, Printed l rest →
      Printed l (write l depth v rest))
    (depth : Nat) {rest : List Char} (hrest : Printed l rest) :
    Printed l (writeItems l depth vs rest) := by
  induction vs with
  | nil => exact hrest
  | cons v vs ih =>
    obtain ⟨hv, hvs⟩ := List.forall_mem_cons.mp h
    exact (printed_separator l depth).append (hv depth (ih hvs))

theorem printed_writeFields {fs : List (String × Value)}
    (h : ∀ f ∈ fs, ∀ (depth : Nat) {rest : List Char}, Printed l rest →
      Printed l (write l depth f.2 rest))
    (depth : Nat) {rest : List Char} (hrest : Printed l rest) :
    Printed l (writeFields l depth fs rest) := by
  induction fs with
  | nil => exact hrest
  | cons f fs ih =>
    obtain ⟨hv, hfs⟩ := List.forall_mem_cons.mp h
    have hvalue := hv depth (ih hfs)
    refine (printed_separator l depth).append (printed_writeString f.1 ?_)
    exact .cons (by decide) (.cons (by decide) hvalue)

theorem printed_write (v : Value) (depth : Nat) {rest : List Char} (h : Printed l rest) :
    Printed l (write l depth v rest) := by
  induction v generalizing depth rest with
  | null => exact .cons (by decide) (.cons (by decide) (.cons (by decide) (.cons (by decide) h)))
  | int i => exact (printed_signedDecimal i).append h
  | string s => exact printed_writeString s h
  | array vs ih =>
    cases vs with
    | nil => exact .cons (by decide) (.cons (by decide) h)
    | cons v vs =>
      obtain ⟨hv, hvs⟩ := List.forall_mem_cons.mp ih
      have hclose := (printed_lineBreak l depth).append (.cons (c := ']') (by decide) h)
      have hitems := hv (depth + 1) (printed_writeItems hvs (depth + 1) hclose)
      exact .cons (by decide) ((printed_lineBreak l (depth + 1)).append hitems)
  | object fs ih =>
    cases fs with
    | nil => exact .cons (by decide) (.cons (by decide) h)
    | cons f fs =>
      obtain ⟨hv, hfs⟩ := List.forall_mem_cons.mp ih
      have hclose := (printed_lineBreak l depth).append (.cons (c := '\x7d') (by decide) h)
      have hvalue := hv (depth + 1) (printed_writeFields hfs (depth + 1) hclose)
      have hfield := printed_writeString f.1 (.cons (c := ':') (by decide)
        (.cons (c := ' ') (by decide) hvalue))
      exact .cons (by decide) ((printed_lineBreak l (depth + 1)).append hfield)

/-- The compact text of a value is one line. -/
theorem lineFeed_notMem_print (v : Value) : '\n' ∉ (v.print .compact).toList := by
  intro h
  rw [Value.print, String.toList_ofList] at h
  rcases printed_write v 0 printed_nil '\n' h with hprintable | ⟨hlayout, -⟩
  · exact absurd hprintable (by decide)
  · cases hlayout

end Json

/-! ## The texts of a record -/

/-- The record is read back from the JSON text and from the last line that a verbose session shows,
and the JSON text tells apart exactly the records. -/
theorem Node.record_reads_back (n : Node) :
    Json.read? (n.render .json) = some n.toRecord ∧
      (∃ line, Session.shown true n = n.text ++ "\n" ++ ("[ast] >>> " ++ line ++ "\n") ∧
        '\n' ∉ line.toList ∧ Json.read? line = some n.toRecord) ∧
      ∀ m : Node, n.render .json = m.render .json ↔ n.toRecord = m.toRecord := by
  constructor
  · exact Json.read?_print .indented n.toRecord
  constructor
  · exact ⟨n.toRecord.print .compact, rfl, Json.lineFeed_notMem_print n.toRecord,
      Json.read?_print .compact n.toRecord⟩
  · intro m
    exact Json.print_inj

end MonkeySyntax
