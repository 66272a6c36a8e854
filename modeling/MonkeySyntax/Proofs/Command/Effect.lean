import MonkeySyntax.Command.Request
import MonkeySyntax.Proofs.Files
import MonkeySyntax.Proofs.Verdicts

/-!
# The effect of a request

A request comes to a rendering or fails; only with a rendering in hand does it change anything. What
it changes is one file or the output. Its log goes along with that and decides nothing.
-/

namespace MonkeySyntax.Command

@[simp] theorem World.note_files (w : World) (log : List LogEntry) : (w.note log).files = w.files :=
  rfl

@[simp] theorem World.note_output (w : World) (log : List LogEntry) :
    (w.note log).output = w.output :=
  rfl

@[simp] theorem World.note_room (w : World) (log : List LogEntry) : (w.note log).room = w.room :=
  rfl

theorem World.note_note (w : World) (first second : List LogEntry) :
    (w.note first).note second = w.note (first ++ second) := by
  simp [World.note]

theorem readText_toUTF8 (s : String) :
    readText s.toUTF8 = .ok (String.ofList (Text.unifyLineEnds s.toList)) := by
  rw [readText, Text.Utf8.decode_toUTF8]

theorem readText_cases (bytes : ByteArray) :
    (∃ s : String, bytes = s.toUTF8 ∧
      readText bytes = .ok (String.ofList (Text.unifyLineEnds s.toList))) ∨
    ∃ f, readText bytes = .error (.decode f) := by
  unfold readText
  cases hdecode : Text.Utf8.decode bytes with
  | error f => exact Or.inr ⟨f, rfl⟩
  | ok s => exact Or.inl ⟨s, Text.Utf8.decode_eq_ok_iff.mp hdecode, rfl⟩

namespace Request

/-- The text that a request parses: the one it brings along, or that of the file it names, with the
line ends made one. -/
inductive Reads (r : Request) (files : Files) : String → Prop where
  | given (hgiven : r.isText = true) : r.Reads files r.source
  | stored {text : String} (hnamed : r.isText = false) (hextension : hasExtension r.source)
      (hread : files.read r.source = .ok text.toUTF8) :
      r.Reads files (String.ofList (Text.unifyLineEnds text.toList))

variable {r : Request} {w : World} {text rendering : String} {f : Failure}

theorem readSource_cases (r : Request) (w : World) :
    (r.isText = true ∧ r.readSource w = (.ok r.source, w)) ∨
    (r.isText = false ∧ hasExtension r.source = false ∧
      r.readSource w = (.error .unsupportedFile, w)) ∨
    (r.isText = false ∧ ∃ e, w.files.read r.source = .error e ∧
      r.readSource w = (.error (.file e), w.note [.reading r.source])) ∨
    (r.isText = false ∧ hasExtension r.source = true ∧
      ∃ bytes, w.files.read r.source = .ok bytes ∧
        r.readSource w = (readText bytes, w.note [.reading r.source])) := by
  unfold readSource
  cases hgiven : r.isText <;> cases hextension : hasExtension r.source <;>
    cases hread : w.files.read r.source <;> simp [hread]

theorem readSource_world (r : Request) (w : World) : ∃ log, (r.readSource w).2 = w.note log := by
  have hsame : w = w.note [] := by simp [World.note]
  rcases r.readSource_cases w with ⟨-, hsource⟩ | ⟨-, -, hsource⟩ | ⟨-, e, -, hsource⟩ |
    ⟨-, -, bytes, -, hsource⟩
  · exact ⟨[], by rw [hsource, ← hsame]⟩
  · exact ⟨[], by rw [hsource, ← hsame]⟩
  · exact ⟨[.reading r.source], by rw [hsource]⟩
  · exact ⟨[.reading r.source], by rw [hsource]⟩

theorem readSource_eq_ok_iff : (r.readSource w).1 = .ok text ↔ r.Reads w.files text := by
  constructor
  · intro h
    rcases r.readSource_cases w with ⟨hgiven, hsource⟩ | ⟨-, -, hsource⟩ | ⟨-, e, -, hsource⟩ |
      ⟨hnamed, hextension, bytes, hread, hsource⟩
    · rw [hsource] at h
      cases h
      exact .given hgiven
    · rw [hsource] at h
      cases h
    · rw [hsource] at h
      cases h
    · rw [hsource] at h
      rcases readText_cases bytes with ⟨s, rfl, htext⟩ | ⟨f, hfault⟩
      · cases htext.symm.trans h
        exact .stored hnamed hextension hread
      · cases hfault.symm.trans h
  · rintro (hgiven | @⟨s, hnamed, hextension, hread⟩)
    · rw [readSource, if_pos hgiven]
    · rw [readSource, if_neg (by simp [hnamed]), if_pos hextension]
      simp only [World.note_files, hread, readText_toUTF8]

/-- The rendering that a request has to deliver, or why there is none. -/
def prepared (r : Request) (w : World) : Except Failure String :=
  match (r.readSource w).1 with
  | .error f => .error f
  | .ok text =>
    match (check text).1 with
    | .error e => .error (.rejected e)
    | .ok program => (program.render? w.room r.format).mapError .overrun

theorem prepared_of_accepted {program : Node} (hreads : r.Reads w.files text)
    (hcheck : (check text).1 = .ok program) :
    r.prepared w = (program.render? w.room r.format).mapError .overrun := by
  simp only [prepared, readSource_eq_ok_iff.mpr hreads, hcheck]

theorem prepared_eq_error_iff :
    r.prepared w = .error f ↔
      (r.readSource w).1 = .error f ∨
      (∃ text e, r.Reads w.files text ∧ (check text).1 = .error e ∧ f = .rejected e) ∨
      ∃ text program o, r.Reads w.files text ∧ (check text).1 = .ok program ∧
        program.overrun? w.room r.format = some o ∧ f = .overrun o := by
  unfold prepared
  cases hsource : (r.readSource w).1 with
  | error e => simp [← readSource_eq_ok_iff, hsource]
  | ok text =>
    cases hverdict : (check text).1 with
    | error e => simp [← readSource_eq_ok_iff, hsource, hverdict, eq_comm]
    | ok program =>
      simp [← readSource_eq_ok_iff, hsource, hverdict, except_mapError_eq_error_iff,
        Node.render?_eq_error_iff, eq_comm (a := f)]

/-- What a request does apart from its log. -/
def effect (r : Request) (w : World) : Except Failure Unit × World :=
  match r.prepared w with
  | .error f => (.error f, w)
  | .ok rendering => r.deliver rendering w

theorem deliver_note (log : List LogEntry) :
    r.deliver rendering (w.note log) =
      ((r.deliver rendering w).1, (r.deliver rendering w).2.note log) := by
  unfold deliver
  cases r.target? with
  | none => rfl
  | some path =>
    simp only [World.note_files]
    cases w.files.write path rendering.toUTF8 with
    | error e => rfl
    | ok files => cases r.pretty <;> rfl

theorem run_eq_effect (r : Request) (w : World) :
    ∃ log, r.run w = ((r.effect w).1, (r.effect w).2.note log) := by
  obtain ⟨first, hfirst⟩ := r.readSource_world w
  cases hsource : (r.readSource w).1 with
  | error e =>
    have hread : r.readSource w = (.error e, w.note first) := Prod.ext hsource hfirst
    exact ⟨first, by simp only [run, effect, prepared, hread]⟩
  | ok text =>
    have hread : r.readSource w = (.ok text, w.note first) := Prod.ext hsource hfirst
    refine ⟨first ++ (check text).2, ?_⟩
    cases hverdict : (check text).1 with
    | error e => simp only [run, effect, prepared, hread, hverdict, World.note_note]
    | ok program =>
      cases hrender : program.render? w.room r.format <;>
        simp only [run, effect, prepared, hread, hverdict, World.note_note, World.note_room,
          hrender, Except.mapError, deliver_note]

/-- A rendering has been delivered: on the output, or as the contents of one file. -/
inductive Delivered (r : Request) (rendering : String) (before after : World) : Prop where
  | shown (hnowhere : r.target? = none) (hfiles : after.files = before.files)
      (houtput : after.output = before.output ++ r.printed rendering)
  | stored {path : String} {p : Place} (hpath : r.target? = some path)
      (hplace : before.files.target path = .ok p)
      (hfiles : Files.Overwritten before.files after.files p rendering.toUTF8)
      (houtput : after.output =
        before.output ++ if r.pretty then s!"(wrote to {path})\n" else "")

theorem Delivered.note {before after : World} (h : r.Delivered rendering before after)
    (log : List LogEntry) : r.Delivered rendering before (after.note log) := by
  cases h with
  | shown hnowhere hfiles houtput => exact .shown hnowhere hfiles houtput
  | stored hpath hplace hfiles houtput => exact .stored hpath hplace hfiles houtput

theorem deliver_cases (r : Request) (rendering : String) (w : World) :
    (∃ path e, r.target? = some path ∧ w.files.target path = .error e ∧
      r.deliver rendering w = (.error (.file e), w)) ∨
    ∃ after, r.deliver rendering w = (.ok (), after) ∧ r.Delivered rendering w after := by
  cases htarget : r.target? with
  | none =>
    have hdeliver : r.deliver rendering w = (.ok (), w.print (r.printed rendering)) := by
      simp only [deliver, htarget]
    exact Or.inr ⟨_, hdeliver, .shown htarget rfl rfl⟩
  | some path =>
    cases hwrite : w.files.write path rendering.toUTF8 with
    | error e =>
      have hplace : w.files.target path = .error e := Files.write_eq_error_iff.mp hwrite
      exact Or.inl ⟨path, e, rfl, hplace, by simp only [deliver, htarget, hwrite]⟩
    | ok files =>
      obtain ⟨p, hplace, hfiles⟩ := Files.overwritten_of_write hwrite
      cases hpretty : r.pretty with
      | false =>
        have hdeliver : r.deliver rendering w = (.ok (), { w with files := files }) := by
          simp only [deliver, htarget, hwrite, hpretty, Bool.false_eq_true, if_false]
        refine Or.inr ⟨_, hdeliver, .stored htarget hplace hfiles ?_⟩
        simp [hpretty]
      | true =>
        have hdeliver : r.deliver rendering w =
            (.ok (), World.print { w with files := files } s!"(wrote to {path})\n") := by
          simp only [deliver, htarget, hwrite, hpretty, if_true]
        refine Or.inr ⟨_, hdeliver, .stored htarget hplace hfiles ?_⟩
        simp [hpretty, World.print]

end Request

end MonkeySyntax.Command
