import Mathlib.Data.List.DropRight
import MonkeySyntax.Cursor
import MonkeySyntax.Proofs.Lexing.Scan

/-!
# Lines and columns

Line and column of a cursor are counted up character by character. The main statements give them in
one go: behind given characters the line is further by their line feeds, and the column is as far
behind the last of these as the characters go on. What operations do to a cursor inside the text is
to read the characters in front of it.
-/

namespace MonkeySyntax.Cursor

theorem past_concat (c : Cursor) (cs : List Char) (ch : Char) :
    c.past (cs ++ [ch]) = (c.past cs).step ch := c.past_append cs [ch]

theorem line_step (c : Cursor) (ch : Char) :
    (c.step ch).line = c.line + [ch].count '\n' := by
  by_cases h : ch = '\n'
  · simp [step, h]
  · simp [step, h]

theorem column_step (c : Cursor) (ch : Char) :
    (c.step ch).column = if ch = '\n' then 1 else c.column + 1 := by
  by_cases h : ch = '\n'
  · simp [step, h]
  · simp [step, h]

/-- Every line feed that is read starts a line. -/
theorem line_past (c : Cursor) (cs : List Char) :
    (c.past cs).line = c.line + cs.count '\n' := by
  induction cs generalizing c with
  | nil => simp
  | cons ch cs ih =>
    have hcount : ([ch] ++ cs).count '\n' = [ch].count '\n' + cs.count '\n' := List.count_append
    rw [List.singleton_append] at hcount
    rw [past_cons, ih, line_step, hcount]
    omega

/-- Behind a line feed columns are counted from one again. -/
theorem column_past (c : Cursor) (cs : List Char) :
    (c.past cs).column =
      (if '\n' ∈ cs then 1 else c.column) + (cs.rtakeWhile (· ≠ '\n')).length := by
  -- from the right, since the last line feed decides
  induction cs using List.reverseRecOn with
  | nil => simp
  | append_singleton cs ch ih =>
    rw [past_concat, column_step, ih]
    by_cases hfeed : ch = '\n'
    · simp [hfeed]
    · have hmem : '\n' ∈ cs ++ [ch] ↔ '\n' ∈ cs := by
        simp [Ne.symm hfeed]
      rw [if_neg hfeed, List.rtakeWhile_concat_pos _ _ _ (by simpa using hfeed), List.length_append,
        List.length_singleton]
      simp only [hmem]
      omega

theorem column_past_of_notMem {c : Cursor} {cs : List Char} (h : '\n' ∉ cs) :
    (c.past cs).column = c.column + cs.length := by
  have hall : cs.rtakeWhile (· ≠ '\n') = cs := by
    rw [List.rtakeWhile_eq_self_iff]
    intro ch hch
    have hne : ch ≠ '\n' := fun heq => h (heq ▸ hch)
    simpa using hne
  rw [column_past, if_neg h, hall]

theorem column_past_of_mem {c : Cursor} {cs : List Char} (h : '\n' ∈ cs) :
    (c.past cs).column = 1 + (cs.rtakeWhile (· ≠ '\n')).length := by
  rw [column_past, if_pos h]

/-! ## Operations -/

variable {c : Cursor}

theorem next_eq_ok {ch : Char} (h : c.read? = some ch) : c.next = .ok (ch, c.step ch) := by
  rw [next, h]

theorem exists_next_eq_error (h : c.read? = none) : ∃ e, c.next = .error e := by
  rw [next, h]
  exact ⟨_, rfl⟩

/-- Inside the text an operation reads the character in front of the cursor or changes nothing. -/
theorem Operation.run_cases (h : 0 ≤ c.position) (o : Operation) :
    (∃ ch, c.rest.head? = some ch ∧ o.run c = (.read ch, c.step ch)) ∨
      (o.run c).1.read? = none ∧ (o.run c).2 = c := by
  cases o with
  | next =>
    cases hhead : c.rest.head? with
    | some ch =>
      left
      have hnext := next_eq_ok ((read?_eq_head? h).trans hhead)
      exact ⟨ch, rfl, by simp only [run, hnext]⟩
    | none =>
      right
      obtain ⟨e, hnext⟩ := exists_next_eq_error ((read?_eq_head? h).trans hhead)
      simp only [run, hnext]
      exact ⟨rfl, trivial⟩
  | peek offset => exact Or.inr ⟨rfl, rfl⟩
  | atEnd => exact Or.inr ⟨rfl, rfl⟩

theorem readBy_cons (c : Cursor) (o : Operation) (os : List Operation) :
    c.readBy (o :: os) = (o.run c).1.read?.toList ++ (o.run c).2.readBy os := by
  cases hread : (o.run c).1.read? <;> simp [readBy, perform, hread]

/-- Operations inside the text read the characters in front of the cursor, and leave it behind
these. -/
theorem perform_eq_past (h : 0 ≤ c.position) (os : List Operation) :
    c.readBy os <+: c.rest ∧ (c.perform os).2 = c.past (c.readBy os) := by
  induction os generalizing c with
  | nil => exact ⟨List.nil_prefix, rfl⟩
  | cons o os ih =>
    rw [readBy_cons]
    rcases Operation.run_cases h o with ⟨ch, hhead, hrun⟩ | ⟨hnone, hsame⟩
    · have hstep : 0 ≤ (c.step ch).position := by
        rw [step_position]
        omega
      obtain ⟨hfront, hbehind⟩ := ih hstep
      obtain ⟨tail, htail⟩ := List.head?_eq_some_iff.mp hhead
      rw [rest_step h, htail, List.tail_cons] at hfront
      simp only [hrun, perform]
      constructor
      · rw [htail]
        exact (List.prefix_cons_inj ch).mpr hfront
      · exact hbehind
    · obtain ⟨hfront, hbehind⟩ := ih h
      simp only [hnone, hsame, perform]
      exact ⟨hfront, hbehind⟩

end MonkeySyntax.Cursor
