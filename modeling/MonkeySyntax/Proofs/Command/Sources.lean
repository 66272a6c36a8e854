import MonkeySyntax.Proofs.Command.Effect
import MonkeySyntax.Proofs.Lexing.LineEnds
import MonkeySyntax.Proofs.Positions

/-!
# Sources given and stored

A request for a file and a request for the text that the file holds come to the same, though only
the first has its line ends made one: tokens are spelled alike in both texts, and where they stand
shows neither in a rendering nor in a failure.
-/

namespace MonkeySyntax.Command

namespace Request

variable {r s : Request} {w : World} {text other : String}

/-- What is prepared from a text is a matter of the spellings of its tokens. -/
theorem prepared_eq_of_spelling (hr : r.Reads w.files text) (hs : s.Reads w.files other)
    (hformat : r.format = s.format)
    (hspelling : (tokenize text).map Token.spelling = (tokenize other).map Token.spelling) :
    r.prepared w = s.prepared w := by
  cases hverdict : (check text).1 with
  | error e =>
    have hother : (check other).1 = .error e := check_eq_error_of_spelling hspelling hverdict
    rw [prepared_eq_error_iff.mpr (Or.inr (Or.inl ⟨text, e, hr, hverdict, rfl⟩)),
      prepared_eq_error_iff.mpr (Or.inr (Or.inl ⟨other, e, hs, hother, rfl⟩))]
  | ok n =>
    obtain ⟨m, hother, hunplaced⟩ := exists_check_eq_ok_of_spelling hspelling hverdict
    rw [prepared_of_accepted hr hverdict, prepared_of_accepted hs hother, hformat,
      Node.render?_eq_of_unplaced hunplaced]

end Request

/-- A stored source and the text that it holds lead to the same answer, the same output and the same
files. -/
theorem run_stored_eq_run_given {path text : String} {w : World} (hextension : hasExtension path)
    (hread : w.files.read path = .ok text.toUTF8) (format : Format) (out : Option String)
    (pretty : Bool) :
    let stored := Request.run ⟨path, false, format, out, pretty⟩ w
    let given := Request.run ⟨text, true, format, out, pretty⟩ w
    stored.1 = given.1 ∧ stored.2.output = given.2.output ∧ stored.2.files = given.2.files := by
  intro stored given
  have hprepared : Request.prepared ⟨path, false, format, out, pretty⟩ w =
      Request.prepared ⟨text, true, format, out, pretty⟩ w :=
    Request.prepared_eq_of_spelling (.stored rfl hextension hread) (.given rfl) rfl
      (spellings_unifyLineEnds text)
  -- Where the source comes from plays no part in a delivery.
  have heffect : Request.effect ⟨path, false, format, out, pretty⟩ w =
      Request.effect ⟨text, true, format, out, pretty⟩ w := by
    unfold Request.effect
    rw [hprepared]
    rfl
  obtain ⟨log, hstored⟩ := Request.run_eq_effect ⟨path, false, format, out, pretty⟩ w
  obtain ⟨log', hgiven⟩ := Request.run_eq_effect ⟨text, true, format, out, pretty⟩ w
  simp only [stored, given, hstored, hgiven, heffect, World.note_output, World.note_files, and_self]

/-- Lone carriage returns, and others before line feeds, in a source that is written over. -/
theorem run_stored_eq_run_given_carriageReturns :
    let w : World := ⟨⟨[(["a.monkey"], "let a\r=\r\n1;\n\r".toUTF8)], [], []⟩, "", [], 1000⟩
    let stored := Request.run ⟨"a.monkey", false, .json, some "a.monkey", true⟩ w
    let given := Request.run ⟨"let a\r=\r\n1;\n\r", true, .json, some "a.monkey", true⟩ w
    stored.1 = given.1 ∧ stored.2.output = given.2.output ∧ stored.2.files = given.2.files :=
  run_stored_eq_run_given (by decide) rfl .json (some "a.monkey") true

end MonkeySyntax.Command
