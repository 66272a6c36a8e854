import MonkeySyntax.Proofs.Chains
import MonkeySyntax.Proofs.Lexing.Symbols
import MonkeySyntax.Proofs.Verdicts

/-!
# Depth of programs

Runs of unary operators are gathered by loops, so the way through a tree takes as many calls however
long its runs are. But the record of a run is nested as deep as the run is long. The main statement
is that there are programs which a little room suffices to write out, and for the JSON of which no
given room suffices.
-/

namespace MonkeySyntax

namespace Node

variable {w : Walk}

/-- A run takes no more calls than its operand. -/
theorem runOpenCalls_wrap (run : List (Token × String)) (operand : Option Node) :
    runOpenCalls w (wrap run operand) = runOpenCalls w operand := by
  induction run with
  | nil => rfl
  | cons p run ih => exact ih

theorem childOpenCalls_wrap_cons (p : Token × String) (run : List (Token × String))
    (operand : Option Node) :
    childOpenCalls w (wrap (p :: run) operand) = w.toChild + runOpenCalls w operand := by
  rw [wrap_cons, childOpenCalls, openCalls, runOpenCalls_wrap]

theorem nesting_prefixRecord (t : Token) (operator : String) (right : Json.Value) :
    (prefixRecord t operator right).nesting = 1 + right.nesting := by
  simp [prefixRecord, recordOf, Json.Value.nesting, Json.Value.fieldsNesting,
    Json.Value.fieldNesting]

/-- A run is recorded one operator inside the other. -/
theorem nesting_childRecord_wrap (run : List (Token × String)) (operand : Option Node) :
    (childRecord (wrap run operand)).nesting = run.length + (childRecord operand).nesting := by
  induction run with
  | nil => simp
  | cons p run ih =>
    rw [wrap_cons, childRecord_some, toRecord_prefixOp, nesting_prefixRecord, ih, List.length_cons]
    omega

variable {t u : Token} {name : String} {p : Token × String} {run : List (Token × String)}

/-- The way through a program that is a name behind unary operators, however many they are. -/
theorem openCalls_run (w : Walk) :
    (program [exprStmt t (wrap (p :: run) (some (identifier u name)))]).openCalls w =
      1 + max 2 (w.toStatement +
        (1 + max w.other (w.toChild + (1 + max 2 (w.toChild + (1 + w.identifier)))))) := by
  simp only [openCalls, openCallsAll, childOpenCalls_wrap_cons, runOpenCalls, Nat.max_zero]

/-- But printing its record takes one more call for every operator. -/
theorem printCalls_run :
    (program [exprStmt t (wrap run (some (identifier u name)))]).printCalls = run.length + 8 := by
  have hrun := nesting_childRecord_wrap run (some (identifier u name))
  simp [printCalls, toRecord, recordAll, recordOf, Json.Value.nesting, Json.Value.itemsNesting,
    Json.Value.fieldsNesting, Json.Value.fieldNesting] at hrun ⊢
  omega

end Node

/-- A name behind unary operators is a statement. -/
theorem Recovery.reads_run {operators : List Token} {name : Token}
    (hoperators : ∀ t ∈ operators, t.kind.isUnary) (hname : name.kind = .ident) :
    Reads (operators ++ [name])
      [.full .plain ⟨⟨operators, .leaf (.identifier name)⟩, []⟩ none] := by
  have hoperand : Operand.WellFormed ⟨operators, .leaf (.identifier name)⟩ := ⟨hoperators, hname⟩
  have hhead : ∀ k : TokenKind, k.isUnary = false → k ≠ .ident →
      (Operand.head ⟨operators, .leaf (.identifier name)⟩).kind ≠ k := by
    rintro k hk hident rfl
    cases operators with
    | nil => exact hident hname
    | cons t ts => exact absurd (hoperators t (by simp)) (by simpa [Operand.head] using hk)
  constructor
  · refine ⟨⟨trivial, ⟨hoperand, fun _ => rfl, by simp⟩, ?_, by simp⟩, ?_, ?_, trivial⟩
    · exact fun _ => ⟨hhead _ (by decide) (by decide), hhead _ (by decide) (by decide)⟩
    · exact hhead _ (by decide) (by decide)
    · exact fun _ => ⟨by decide, Or.inr (by decide)⟩
  · exact Or.inl (by simp [Program.tokens, Statement.tokens, Lead.tokens, Run.tokens,
      Operand.tokens, Atom.token, Grammar.Leaf.token])

/-- A name behind so many minus signs. -/
def minusRun (n : Nat) : String := String.ofList (List.replicate n '-' ++ ['x'])

open Lexing in
theorem spellings_minusRun (n : Nat) :
    spellings (List.replicate n '-' ++ ['x']) =
      List.replicate n (.minus, "-") ++ [(.ident, "x"), (.eof, "")] := by
  induction n with
  | zero =>
    let name : Lexeme := ⟨.ident, ['x'], .word (by decide) (wordKind_getD _)⟩
    have hname := spellings_lexeme name.endsBefore_nil
    rwa [spellings_nil] at hname
  | succ n ih =>
    let sign : Lexeme := ⟨.minus, ['-'], .operator (by decide)⟩
    have hends : sign.EndsBefore (List.replicate n '-' ++ ['x']) :=
      Lexeme.endsBefore_of_symbol rfl (by decide) (by simp [sign])
    have hsign := spellings_lexeme hends
    rwa [ih] at hsign

/-- With a little room for calls the text of a program can be asked for, however many operators it
starts with; but for every room there are too many of them for the JSON of its record. -/
theorem exists_check_minusRun {room n : Nat} (hroom : 12 ≤ room) (hdeep : room < n + 8) :
    ∃ program, (check (minusRun n)).1 = .ok program ∧ program.textOverrun? room = none ∧
      program.recordOverrun? room = some .json := by
  obtain ⟨m, rfl⟩ : ∃ m, n = m + 1 := ⟨n - 1, by omega⟩
  let sign : Token := ⟨.minus, "-", 1, 1⟩
  let name : Token := ⟨.ident, "x", 1, 1⟩
  let operand : Recovery.Operand := ⟨List.replicate (m + 1) sign, .leaf (.identifier name)⟩
  have hsigns : ∀ t ∈ List.replicate (m + 1) sign, t.kind.isUnary := by
    intro t ht
    rw [List.eq_of_mem_replicate ht]
    decide
  have hspelling : (tokenize (minusRun (m + 1))).map Token.spelling =
      (List.replicate (m + 1) sign ++ [name]).map Token.spelling ++ [(.eof, "")] := by
    rw [List.map_append, List.map_replicate, List.append_assoc]
    exact spellings_minusRun (m + 1)
  obtain ⟨program, hcheck, hsame⟩ :=
    check_of_no_diagnostics (Recovery.reads_run hsigns rfl) hspelling rfl
  let tree : Node := .program [.exprStmt operand.head
    (Node.wrap ((sign, "-") :: List.replicate m (sign, "-")) (some (.identifier name "x")))]
  have htree : Node.program (Recovery.Program.trees [.full .plain ⟨operand, []⟩ none]) = tree := by
    have hvalue : Recovery.Run.tree ⟨operand, []⟩ = operand.tree := Recovery.group_nil _
    have hrun : (List.replicate (m + 1) sign).map (fun t => (t, t.literal)) =
        (sign, "-") :: List.replicate m (sign, "-") := List.map_replicate
    simp only [tree, ← hrun]
    exact congrArg (fun value => Node.program [.exprStmt operand.head value]) hvalue
  rw [htree] at hsame
  have htext : tree.openCalls .text = 11 := Node.openCalls_run .text
  have hrecord : tree.openCalls .record = 9 := Node.openCalls_run .record
  have hprint : tree.printCalls = m + 1 + 8 := by
    rw [Node.printCalls_run, List.length_cons, List.length_replicate]
  refine ⟨program, hcheck, ?_, ?_⟩
  · rw [Node.textOverrun?_eq_of_unplaced hsame, Node.textOverrun?, if_pos (by omega)]
  · rw [Node.recordOverrun?_eq_of_unplaced hsame, Node.recordOverrun?, if_neg (by omega),
      if_pos (by omega)]

end MonkeySyntax
