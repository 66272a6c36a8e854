import Mathlib.Logic.Function.Iterate
import MonkeySyntax.Command.Execution
import MonkeySyntax.Proofs.Depth

/-!
# Sessions line by line

A session hears its inputs up to the first one that ends it. Every line it hears is answered by
itself, in the mode that the lines before it leave: as a request for the text of the line would be,
with the diagnostics of a rejected line and the tree of an accepted one written out. Where the tree
is nested too deep to be written out, the answer breaks off behind the text.
-/

namespace MonkeySyntax.Session

open Command

namespace Input

/-- The session does not end with the input. -/
def goesOn : Input → Bool
  | line text => !isLeave (Text.strip text)
  | endOfInput | interrupt => false

/-- The input switches the mode. -/
def toggles : Input → Bool
  | line text => isToggle (Text.strip text)
  | endOfInput | interrupt => false

/-- The line without the blanks around it. -/
def content : Input → String
  | line text => Text.strip text
  | endOfInput | interrupt => ""

end Input

/-- The mode that inputs leave behind: switched once for each of them that says so. -/
def modeAfter (verbose : Bool) (heard : List Input) : Bool :=
  not^[heard.countP Input.toggles] verbose

/-- What a line is answered with where the session goes on. -/
def answerTo (room : Nat) (verbose : Bool) (line : String) : String :=
  if isSkipped line then ""
  else if isToggle line then modeLine !verbose
  else answer room verbose (check line).1

/-- What is printed in the end, where the given inputs are left. -/
def closing : List Input → String
  | .line _ :: _ => farewell
  | _ => "\n" ++ farewell

/-- The failure of a request that breaks down in the same way. -/
def Breakdown.failure : Breakdown → Failure
  | fault f => .rejected (.fault f)
  | overrun o => .overrun o

/-- The answer shows what a request for the text of the line comes to, with the same room for calls:
what that prints, the diagnostics that it reports, or another failure. The verbose mode adds the
record of the program, or that there is no room for it. -/
structure Shows (room : Nat) (verbose : Bool) (line answer : String) : Prop where
  printed : ∀ (w after : World) (output : String), w.room = room →
    Request.run ⟨line, true, .text, none, false⟩ w = (.ok (), after) →
    after.output = w.output ++ output →
    ∃ program, (check line).1 = .ok program ∧
      answer = output ++
        if verbose then
          match program.recordOverrun? room with
          | none => "[ast] >>> " ++ program.toRecord.print .compact ++ "\n"
          | some o => breakdownBlock (.overrun o)
        else ""
  reported : ∀ (w after : World) (r : ParseReport), w.room = room →
    Request.run ⟨line, true, .text, none, false⟩ w = (.error (.rejected (.report r)), after) →
    answer = "[error] >>> parser errors:\n" ++ indentedLines r.messages
  broken : ∀ (w after : World) (f : Failure), w.room = room →
    Request.run ⟨line, true, .text, none, false⟩ w = (.error f, after) →
    (∀ r, f ≠ .rejected (.report r)) →
    ∃ b : Breakdown, f = b.failure ∧ answer = breakdownBlock b

structure Answers (room : Nat) (verbose : Bool) (line answer : String) : Prop where
  passedOver : line = "" ∨ line.toList.head? = some '#' → answer = ""
  switched : line.toList.map Char.toLower = "verbose-mode".toList → answer = modeLine !verbose
  parsed : isSkipped line = false → isToggle line = false → Shows room verbose line answer

/-! ## One line -/

theorem isSkipped_iff {line : String} :
    isSkipped line ↔ line = "" ∨ line.toList.head? = some '#' := by
  simp [isSkipped]

theorem isToggle_iff {line : String} :
    isToggle line ↔ line.toList.map Char.toLower = "verbose-mode".toList := by
  simp [isToggle]

theorem isSkipped_of_isToggle {line : String} (h : isToggle line) : isSkipped line = false := by
  have hlower := isToggle_iff.mp h
  by_contra hskipped
  rcases isSkipped_iff.mp (by simpa using hskipped) with hempty | hcomment
  · rw [hempty] at hlower
    exact absurd hlower (by decide)
  · have hhead := congrArg List.head? hlower
    rw [List.head?_map, hcomment] at hhead
    exact absurd hhead (by decide)

theorem run_line (line : String) (w : World) :
    Request.run ⟨line, true, .text, none, false⟩ w =
      match (check line).1 with
      | .error e => (.error (.rejected e), w.note (check line).2)
      | .ok program =>
        match program.textOverrun? w.room with
        | some o => (.error (.overrun o), w.note (check line).2)
        | none => (.ok (), (w.note (check line).2).print (program.text ++ "\n")) := by
  simp only [Request.run, Request.readSource, if_true, Node.render?, Node.overrun?]
  cases (check line).1 with
  | error e => rfl
  | ok program =>
    cases hroom : program.textOverrun? w.room with
    | none =>
      simp only [World.note, hroom]
      rfl
    | some o => simp only [World.note, hroom]

section Answer

variable {room : Nat} {program : Node} {o : Overrun}

theorem answer_of_accepted (hroom : program.textOverrun? room = none) (verbose : Bool) :
    answer room verbose (.ok program) = program.text ++ "\n" ++
      if verbose then
        match program.recordOverrun? room with
        | none => "[ast] >>> " ++ program.toRecord.print .compact ++ "\n"
        | some o => breakdownBlock (.overrun o)
      else "" := by
  cases verbose with
  | false => simp only [answer, handle, shownWithin, hroom, shown, Bool.false_eq_true, if_false]
  | true =>
    cases hrecord : program.recordOverrun? room with
    | none => simp only [answer, handle, shownWithin, hroom, hrecord, shown, if_true]
    | some o =>
      simp only [answer, handle, shownWithin, hroom, hrecord, shown, if_true, Bool.false_eq_true,
        if_false, String.append_empty]

theorem answer_of_overrun (hroom : program.textOverrun? room = some o) (verbose : Bool) :
    answer room verbose (.ok program) = breakdownBlock (.overrun o) := by
  simp only [answer, handle, shownWithin, hroom, String.empty_append]

theorem answer_of_fault (room : Nat) (verbose : Bool) (f : Fault) :
    answer room verbose (.error (.fault f)) = breakdownBlock (.fault f) := by
  simp only [answer, handle, String.empty_append]

end Answer

theorem shows_answer (room : Nat) (verbose : Bool) (line : String) :
    Shows room verbose line (answer room verbose (check line).1) := by
  constructor
  · rintro w after output rfl hrun houtput
    rw [run_line] at hrun
    cases hverdict : (check line).1 with
    | error e =>
      rw [hverdict] at hrun
      cases hrun
    | ok program =>
      simp only [hverdict] at hrun
      cases hroom : program.textOverrun? w.room with
      | some o =>
        rw [hroom] at hrun
        cases hrun
      | none =>
        rw [hroom] at hrun
        cases hrun
        have hprinted : program.text ++ "\n" = output := by
          simpa [World.print, World.note] using houtput
        rw [answer_of_accepted hroom, hprinted]
        exact ⟨program, rfl, rfl⟩
  · rintro w after r rfl hrun
    rw [run_line] at hrun
    cases hverdict : (check line).1 with
    | error e =>
      rw [hverdict] at hrun
      cases hrun
      rfl
    | ok program =>
      simp only [hverdict] at hrun
      cases hroom : program.textOverrun? w.room <;>
      · rw [hroom] at hrun
        cases hrun
  · rintro w after f rfl hrun hother
    rw [run_line] at hrun
    cases hverdict : (check line).1 with
    | error e =>
      rw [hverdict] at hrun
      cases hrun
      cases e with
      | report r => exact absurd rfl (hother r)
      | fault f => exact ⟨.fault f, rfl, answer_of_fault _ _ f⟩
    | ok program =>
      simp only [hverdict] at hrun
      cases hroom : program.textOverrun? w.room with
      | some o =>
        rw [hroom] at hrun
        cases hrun
        exact ⟨.overrun o, rfl, answer_of_overrun hroom verbose⟩
      | none =>
        rw [hroom] at hrun
        cases hrun

theorem answers_answerTo (room : Nat) (verbose : Bool) (line : String) :
    Answers room verbose line (answerTo room verbose line) := by
  constructor
  · intro h
    simp [answerTo, isSkipped_iff.mpr h]
  · intro h
    have htoggle := isToggle_iff.mpr h
    simp [answerTo, isSkipped_of_isToggle htoggle, htoggle]
  · intro hskipped htoggle
    have hanswer : answerTo room verbose line = answer room verbose (check line).1 := by
      simp [answerTo, hskipped, htoggle]
    rw [hanswer]
    exact shows_answer room verbose line

theorem reply_of_goesOn {i : Input} (h : i.goesOn) (room : Nat) (verbose : Bool) :
    (reply room verbose i).output = answerTo room verbose i.content ∧
      (reply room verbose i).verbose = (if i.toggles then !verbose else verbose) ∧
      (reply room verbose i).ended = false := by
  cases i with
  | line text =>
    have hstay : isLeave (Text.strip text) = false := by simpa [Input.goesOn] using h
    by_cases hskipped : isSkipped (Text.strip text)
    · have htoggle : isToggle (Text.strip text) = false := by
        by_contra htoggle
        have hnot := isSkipped_of_isToggle (by simpa using htoggle)
        rw [hskipped] at hnot
        cases hnot
      simp [reply, answerTo, Input.content, Input.toggles, hstay, hskipped, htoggle]
    · by_cases htoggle : isToggle (Text.strip text)
      · simp [reply, answerTo, Input.content, Input.toggles, hstay, hskipped, htoggle]
      · simp [reply, answerTo, Input.content, Input.toggles, hstay, hskipped, htoggle]
  | endOfInput | interrupt => cases h

theorem reply_of_not_goesOn {i : Input} (h : i.goesOn = false) (room : Nat) (verbose : Bool)
    (behind : List Input) :
    (reply room verbose i).output = closing (i :: behind) ∧
      (reply room verbose i).ended = true := by
  cases i with
  | line text =>
    have hleave : isLeave (Text.strip text) = true := by simpa [Input.goesOn] using h
    simp [reply, closing, hleave]
  | endOfInput | interrupt => exact ⟨rfl, rfl⟩

/-! ## A whole session -/

theorem modeAfter_cons (verbose : Bool) (i : Input) (is : List Input) :
    modeAfter verbose (i :: is) = modeAfter (if i.toggles then !verbose else verbose) is := by
  unfold modeAfter
  by_cases h : i.toggles
  · rw [List.countP_cons_of_pos h, Function.iterate_succ_apply, if_pos h]
  · rw [List.countP_cons_of_neg h, if_neg h]

variable (room : Nat)

/-- The answers to the inputs that a session hears, each in the mode of its place. -/
def answersTo (verbose : Bool) (heard : List Input) : List String :=
  heard.mapIdx fun k i => answerTo room (modeAfter verbose (heard.take k)) i.content

theorem answersTo_cons (verbose : Bool) (i : Input) (is : List Input) :
    answersTo room verbose (i :: is) =
      answerTo room verbose i.content ::
        answersTo room (if i.toggles then !verbose else verbose) is := by
  simp only [answersTo, List.mapIdx_cons, List.take_succ_cons, modeAfter_cons]
  rfl

theorem replies_eq (verbose : Bool) (inputs : List Input) :
    (replies room verbose inputs).1.map Reply.output =
        answersTo room verbose (inputs.takeWhile Input.goesOn) ++
          [closing (inputs.dropWhile Input.goesOn)] ∧
      (replies room verbose inputs).2 = (inputs.dropWhile Input.goesOn).tail := by
  induction inputs generalizing verbose with
  | nil => exact ⟨rfl, rfl⟩
  | cons i is ih =>
    by_cases h : i.goesOn
    · obtain ⟨houtput, hmode, hended⟩ := reply_of_goesOn h room verbose
      obtain ⟨hanswers, hunread⟩ := ih (reply room verbose i).verbose
      rw [List.takeWhile_cons_of_pos h, List.dropWhile_cons_of_pos h, answersTo_cons, ← hmode]
      simp [replies, hended, houtput, hanswers, hunread]
    · obtain ⟨houtput, hended⟩ := reply_of_not_goesOn (by simpa using h) room verbose is
      rw [List.takeWhile_cons_of_neg h, List.dropWhile_cons_of_neg h]
      simp [replies, hended, houtput, answersTo]

theorem segments_eq {rs : List Reply} {answers : List String} {last : String}
    (h : rs.map Reply.output = answers ++ [last]) (before : String) :
    segments before rs = (before :: answers).map (· ++ prompt) ++ [last] := by
  induction answers generalizing before rs with
  | nil =>
    obtain ⟨r, rfl, rfl⟩ := List.map_eq_singleton_iff.mp h
    rfl
  | cons answer answers ih =>
    obtain ⟨r, rs, rfl, rfl, hrest⟩ := List.map_eq_cons_iff.mp h
    rw [segments, ih hrest]
    rfl

/-- A session prints its banner, the answer to every line up to the input that ends it, and the
farewell, with a prompt in front of each but the first. A line is answered by itself, in the mode
that the lines before it leave. No input behind the one that ends the session is read. -/
theorem run_eq_answers (verbose : Bool) (inputs : List Input) :
    let heard := inputs.takeWhile Input.goesOn
    let left := inputs.dropWhile Input.goesOn
    (run room verbose inputs).segments =
        (banner :: heard.mapIdx fun k i =>
          answerTo room (modeAfter verbose (heard.take k)) i.content).map (· ++ prompt) ++
        [closing left] ∧
      (run room verbose inputs).unread = left.tail.length ∧
      ∀ (mode : Bool) (line : String), Answers room mode line (answerTo room mode line) := by
  intro heard left
  obtain ⟨hanswers, hunread⟩ := replies_eq room verbose inputs
  refine ⟨segments_eq hanswers banner, ?_, answers_answerTo room⟩
  exact congrArg List.length hunread

example :
    let t := run 1000 false [.line " Verbose-Mode ", .line "# 1", .line "quit\n", .line "1"]
    t.output = "Monkey REPL. Type 'exit' or 'quit' to leave.\n" ++
      ">> [mode] >>> Verbose mode ON\n>> >> Exiting Monkey REPL.\n" ∧ t.unread = 1 := by
  decide

/-! ## Programs nested too deep -/

variable {room : Nat} {n : Nat}

theorem isSkipped_minusRun (n : Nat) : isSkipped (minusRun n) = false := by
  have hempty : minusRun n ≠ "" := by
    intro h
    simpa [minusRun] using congrArg String.toList h
  have hhead : (minusRun n).toList.head? ≠ some '#' := by
    cases n <;> simp [minusRun, List.replicate_succ]
  exact Bool.eq_false_iff.mpr fun h => (isSkipped_iff.mp h).elim hempty hhead

theorem isToggle_minusRun (n : Nat) : isToggle (minusRun n) = false := by
  have hlower : (minusRun n).toList.map Char.toLower ≠ "verbose-mode".toList := by
    intro h
    have hhead := congrArg List.head? h
    cases n <;> simp [minusRun, List.replicate_succ] at hhead
  exact Bool.eq_false_iff.mpr fun h => hlower (isToggle_iff.mp h)

/-- A breakdown is not taken for a record. -/
theorem breakdownBlock_ne_record (b : Breakdown) (record : String) :
    breakdownBlock b ≠ "[ast] >>> " ++ record ++ "\n" := by
  intro h
  have hchars := congrArg String.toList h
  unfold breakdownBlock at hchars
  simp only [String.toList_append, List.append_assoc] at hchars
  have hsecond := congrArg (fun cs => cs[1]?) hchars
  cases hsecond

/-- Whatever the room, there is a line the answer to which breaks off behind its text. -/
theorem answerTo_minusRun (hroom : 12 ≤ room) (hdeep : room < n + 8) :
    ∃ program, (check (minusRun n)).1 = .ok program ∧ program.textOverrun? room = none ∧
      answerTo room true (minusRun n) =
        program.text ++ "\n" ++ breakdownBlock (.overrun .json) := by
  obtain ⟨program, hcheck, htext, hrecord⟩ := exists_check_minusRun hroom hdeep
  refine ⟨program, hcheck, htext, ?_⟩
  have hanswer := answer_of_accepted htext true
  simp only [hrecord, if_true] at hanswer
  simp only [answerTo, isSkipped_minusRun, isToggle_minusRun, Bool.false_eq_true, if_false, hcheck,
    hanswer]

/-- The verbose mode does not add the record to everything that a request prints: for a name behind
2000 minus signs there is no room. -/
theorem not_answered_by_record :
    ¬ ∀ (line : String) (w after : World) (output : String), w.room = showingRoom →
      isSkipped line = false → isToggle line = false →
      Request.run ⟨line, true, .text, none, false⟩ w = (.ok (), after) →
      after.output = w.output ++ output →
      ∃ program, (check line).1 = .ok program ∧
        answerTo showingRoom true line =
          output ++ ("[ast] >>> " ++ program.toRecord.print .compact ++ "\n") := by
  intro hall
  obtain ⟨program, hcheck, htext, hanswer⟩ :=
    @answerTo_minusRun showingRoom 2000 (by decide) (by decide)
  let w : World := ⟨⟨[], [], []⟩, "", [], showingRoom⟩
  have hrun : Request.run ⟨minusRun 2000, true, .text, none, false⟩ w =
      (.ok (), (w.note (check (minusRun 2000)).2).print (program.text ++ "\n")) := by
    rw [run_line, hcheck]
    simp only [w, htext]
  obtain ⟨tree, htree, hrecord⟩ := hall _ _ _ (program.text ++ "\n") rfl (isSkipped_minusRun _)
    (isToggle_minusRun _) hrun rfl
  exact breakdownBlock_ne_record _ _ (String.append_right_inj _ |>.mp (hanswer.symm.trans hrecord))

end MonkeySyntax.Session
