import MonkeySyntax.Proofs.Lexing.Order
import MonkeySyntax.Proofs.Recovery.Reading
import MonkeySyntax.Proofs.Spelling

/-!
# The locations of diagnostics

A diagnostic is recorded at the current token, and before the next one is recorded the parser moves
on: within a statement no two diagnostics are neighbours, and behind every statement there is an
advance. The main statement is that on a source text the locations of the diagnostics are locations
of tokens, in their order and each at most once.
-/

namespace MonkeySyntax

/-- The location at which a diagnostic was recorded. -/
def LogEntry.location? : LogEntry → Option Location
  | diagnosed _ line col => some (toLex (line, col))
  | _ => none

theorem LogEntry.isSome_location? (e : LogEntry) : e.location?.isSome = e.diagnostic?.isSome := by
  cases e <;> rfl

namespace Parser

/-! ## Moves -/

namespace Move

variable {ms ns : List Move}

/-- For each diagnostic how many advances there are before it, counted from a given number on. -/
def stops : Nat → List Move → List Nat
  | _, [] => []
  | i, .advance :: ms => stops (i + 1) ms
  | i, .diagnose _ :: ms => i :: stops i ms

theorem stops_append (i : Nat) (ms ns : List Move) :
    stops i (ms ++ ns) = stops i ms ++ stops (i + advances ms) ns := by
  induction ms generalizing i with
  | nil => rfl
  | cons m ms ih =>
    cases m with
    | advance =>
      have hcount : i + 1 + advances ms = i + (advances ms + 1) := by omega
      rw [List.cons_append, stops, stops, ih, advances_advance, hcount]
    | diagnose d => rw [List.cons_append, stops, stops, ih, advances_diagnose, List.cons_append]

/-- Of two neighbouring moves at most one is a diagnostic. -/
def Spaced (ms : List Move) : Prop := ms.IsChain fun m n => m = .advance ∨ n = .advance

theorem Spaced.append (h : Spaced ms) (h' : Spaced ns) (hhead : ∀ n ∈ ns.head?, n = .advance) :
    Spaced (ms ++ ns) :=
  List.IsChain.append h h' fun _ _ n hn => Or.inr (hhead n hn)

theorem Spaced.replicate_append (n : Nat) (h : Spaced ms) :
    Spaced (List.replicate n .advance ++ ms) := by
  induction n with
  | zero => exact h
  | succ n ih => exact List.isChain_cons.mpr ⟨fun _ _ => Or.inl rfl, ih⟩

/-- Spaced diagnostics stand at different tokens, the last one at most behind all advances. -/
theorem Spaced.stops_sublist {ms : List Move} (h : Spaced ms) (i : Nat) :
    (stops i ms).Sublist (List.range' i (advances ms + 1)) := by
  -- by recursion in place of induction: behind a diagnostic two moves are taken at once
  match ms, h with
  | [], _ => exact List.nil_sublist _
  | .advance :: ms, h =>
    have hspaced : Spaced ms := h.tail
    have hrest := hspaced.stops_sublist (i + 1)
    rw [stops, advances_advance, List.range'_succ]
    exact hrest.cons i
  | [.diagnose d], _ => exact List.Sublist.refl [i]
  | .diagnose d :: .advance :: ms, h =>
    have hspaced : Spaced ms := h.tail.tail
    have hrest := hspaced.stops_sublist (i + 1)
    rw [stops, stops, advances_diagnose, advances_advance, List.range'_succ]
    exact hrest.cons_cons i
  | .diagnose d :: .diagnose e :: ms, h =>
    rcases (List.isChain_cons_cons.mp h).1 with hmove | hmove <;> cases hmove

end Move

/-! ## The log -/

section

variable {σ : Type}

/-- The locations of the diagnostics, oldest first. -/
def locations (p : Parser σ) : List Location := p.log.filterMap LogEntry.location?

theorem locations_note (p : Parser σ) (e : LogEntry) :
    (p.note e).locations = p.locations ++ e.location?.toList := by
  cases h : e.location? <;> simp [locations, log, note, h]

theorem locations_diagnose (p : Parser σ) (d : Diagnostic) :
    (p.diagnose d).locations = p.locations ++ [p.cur.location] := locations_note ..

theorem length_locations (p : Parser σ) : p.locations.length = p.diagnostics.length := by
  simp only [locations, diagnostics, List.length_filterMap_eq_countP, LogEntry.isSome_location?]

variable [TokenSource σ]

theorem locations_advance (p : Parser σ) : p.advance.locations = p.locations := by
  have h : (TokenSource.notice σ (TokenSource.pull p.source).1).toList.reverse.filterMap
      LogEntry.location? = [] := by
    rw [List.filterMap_eq_nil_iff]
    intro e he
    have hnotice := TokenSource.diagnostic?_notice _ e (by simpa using he)
    have hlocation := e.isSome_location?
    rw [hnotice] at hlocation
    exact Option.isNone_iff_eq_none.mp (by simpa using hlocation)
  simp [locations, log, advance, h]

/-- What moves record, they record at the tokens that they come to stand on. -/
theorem locations_follow {p : Parser σ} {f : Nat → Token} {i : Nat}
    (hahead : ∀ n, p.ahead n = f (i + n)) (ms : List Move) :
    (p.follow ms).locations = p.locations ++ (Move.stops i ms).map fun j => (f j).location := by
  induction ms generalizing p i with
  | nil => simp [Move.stops]
  | cons m ms ih =>
    cases m with
    | advance =>
      have hnext : ∀ n, p.advance.ahead n = f (i + 1 + n) := by
        intro n
        rw [ahead_advance, hahead, Nat.add_assoc, Nat.add_comm 1]
      rw [follow_advance, ih hnext, locations_advance, Move.stops]
    | diagnose d =>
      have hcur : p.cur = f i := hahead 0
      have hsame : ∀ n, (p.diagnose d).ahead n = f (i + n) := by
        intro n
        rw [ahead_diagnose, hahead]
      rw [follow_diagnose, ih hsame, locations_diagnose, Move.stops, hcur]
      simp

end

end Parser

namespace Recovery

/-! ## The moves of a program -/

theorem Operand.spaced_moves (o : Operand) : Parser.Move.Spaced o.moves := by
  apply Parser.Move.Spaced.replicate_append
  cases o.atom with
  | leaf => exact List.isChain_nil
  | badInteger | missing => exact List.isChain_singleton _

theorem Link.spaced_moves (x : Link) : Parser.Move.Spaced x.moves :=
  Parser.Move.Spaced.replicate_append 2 x.2.spaced_moves

theorem Run.spaced_moves (w : Run) : Parser.Move.Spaced w.moves := by
  have hlinks : Parser.Move.Spaced (w.rest.flatMap Link.moves) ∧
      ∀ m ∈ (w.rest.flatMap Link.moves).head?, m = .advance := by
    induction w.rest with
    | nil => exact ⟨List.isChain_nil, by simp⟩
    | cons x xs ih => exact ⟨x.spaced_moves.append ih.1 ih.2, by simp [Link.moves]⟩
  exact w.first.spaced_moves.append hlinks.1 hlinks.2

theorem Statement.spaced_moves (s : Statement) : Parser.Move.Spaced s.moves := by
  cases s with
  | nameless => exact List.isChain_singleton _
  | signless => exact Parser.Move.Spaced.replicate_append 1 (List.isChain_singleton _)
  | full lead value semicolon =>
    apply Parser.Move.Spaced.replicate_append
    cases semicolon with
    | none => exact (List.append_nil value.moves).symm ▸ value.spaced_moves
    | some t => exact value.spaced_moves.append (List.isChain_singleton _) (by simp)

theorem Program.stops_moves (ss : List Statement) (i : Nat) :
    (Parser.Move.stops i (moves ss)).Sublist (List.range' i (tokens ss).length) := by
  induction ss generalizing i with
  | nil => exact List.nil_sublist _
  | cons s ss ih =>
    have hadvances := s.advances_moves
    have hfirst := s.spaced_moves.stops_sublist i
    have hcount : i + Parser.Move.advances s.moves + 1 = i + s.tokens.length := by omega
    rw [hadvances] at hfirst
    rw [moves_cons, Parser.Move.stops_append, Parser.Move.stops, hcount, tokens_cons,
      List.length_append, ← List.range'_append_1]
    exact hfirst.append (ih _)

end Recovery

namespace Parser

open Recovery

variable {l : Lexer} {ss : List Statement}

/-- No more than one end of input is read, and that is a token of the lexer. -/
theorem length_tokens_le_tokens (h : (ofSource l).FacesProgram ss) :
    (Program.tokens ss).length ≤ l.tokens.length := by
  have hpositive := List.length_pos_iff.mpr l.tokens_ne_nil
  have hread := (faces_iff_ahead _ _).mp h.faces
  simp only [ahead_ofSource] at hread
  by_contra hgt
  have hlast : (Program.tokens ss)[l.tokens.length - 1].kind = .eof := by
    have hhere : l.tokens.length - 1 < l.tokens.length := by omega
    rw [← hread, l.delivers.nth_eq hhere]
    apply l.eof_of_mem_getLast?
    rw [List.getLast?_eq_getElem?, List.getElem?_eq_getElem hhere]
    rfl
  -- the token behind the last one of the lexer would be a second end of input in a row
  apply (Program.sparse_tokens h.chained).not_both (by omega) hlast
  rw [← hread]
  exact l.delivers.kind_nth (by omega)

/-- What is read as a program are the first tokens of the lexer. -/
theorem isPrefix_tokens (h : (ofSource l).FacesProgram ss) : Program.tokens ss <+: l.tokens := by
  obtain ⟨es, heq, -⟩ := h.faces.eq_take_append l.delivers
  have hle := length_tokens_le_tokens h
  have hnil : es = [] := by
    have hlength := congrArg List.length heq
    rw [List.length_append, List.length_take] at hlength
    exact List.length_eq_zero_iff.mp (by omega)
  rw [hnil, List.append_nil] at heq
  rw [heq]
  exact List.take_prefix _ _

theorem map_ahead_range' {σ : Type} [TokenSource σ] {p : Parser σ} {ts : List Token}
    (h : p.Faces ts) : (List.range' 0 ts.length).map p.ahead = ts := by
  rw [faces_iff_ahead] at h
  apply List.ext_getElem
  · simp
  · intro i hi hi'
    rw [List.getElem_map, List.getElem_range', Nat.zero_add, Nat.one_mul]
    exact h i hi'

/-- The locations of a parse are those of tokens of the lexer, in their order. -/
theorem locations_sublist {n : Node} {p : Parser Lexer} (h : parse l = (.ok n, p)) :
    p.locations.Sublist (l.tokens.map Token.location) := by
  obtain ⟨ss, hfaces, -, -⟩ := facesProgram_of_parse h
  obtain ⟨e, hparse⟩ := parse_of_facesProgram hfaces
  obtain ⟨-, rfl⟩ := Prod.mk.inj (h.symm.trans hparse)
  have hlocations : ((ofSource l).follow (Program.moves ss)).locations =
      (Move.stops 0 (Program.moves ss)).map fun i => ((ofSource l).ahead i).location := by
    have hstart : (ofSource l).locations = [] := by
      rw [ofSource, locations_advance, locations_advance]
      rfl
    have hahead : ∀ i, (ofSource l).ahead i = (ofSource l).ahead (0 + i) := by simp
    rw [locations_follow hahead, hstart, List.nil_append]
  have hread : ((Move.stops 0 (Program.moves ss)).map (ofSource l).ahead).Sublist
      (Program.tokens ss) := by
    have hstops := (Program.stops_moves ss 0).map (ofSource l).ahead
    rwa [map_ahead_range' hfaces.faces] at hstops
  have hsublist := (hread.trans (isPrefix_tokens hfaces).sublist).map Token.location
  rw [List.map_map] at hsublist
  rw [locations_note, hlocations]
  exact (List.append_nil _).symm ▸ hsublist

/-- On a source text the locations of the diagnostics are locations of tokens, one behind the other,
so that there are at most as many diagnostics as tokens. -/
theorem diagnosed_in_order {n : Node} {p : Parser Lexer} (h : parse l = (.ok n, p)) :
    p.locations.Pairwise (· < ·) ∧ p.locations.Sublist (l.tokens.map Token.location) ∧
      p.locations.length = p.diagnostics.length ∧
      p.diagnostics.length ≤ l.tokens.countP (·.kind ≠ .eof) + 1 := by
  have hsublist := locations_sublist h
  have hordered : (l.tokens.map Token.location).Pairwise (· < ·) :=
    List.pairwise_map.mpr l.locations_tokens.2
  have hlength := hsublist.length_le
  rw [List.length_map, p.length_locations, l.length_tokens] at hlength
  exact ⟨hordered.sublist hsublist, hsublist, p.length_locations, hlength⟩

/-- The statements that are read out of `)` and, on the next line, `09`. -/
def twoLines : List Statement :=
  [.full .plain ⟨⟨[], .missing ⟨.rparen, ")", 1, 1⟩⟩, []⟩ none,
    .full .plain ⟨⟨[], .badInteger ⟨.int, "09", 2, 1⟩⟩, []⟩ none]

theorem twoLines_reads : Reads (Program.tokens twoLines) twoLines := ⟨by decide, Or.inl rfl⟩

theorem spellings_twoLines :
    (tokenize ")\n09").map Token.spelling =
      (Program.tokens twoLines).map Token.spelling ++ [(.eof, "")] := by
  let paren : Lexing.Lexeme := ⟨.rparen, [')'], .operator (by decide)⟩
  let number : Lexing.Lexeme := ⟨.int, ['0', '9'], .number ⟨by simp, by simp⟩⟩
  let noBlank : Lexing.Gap := ⟨[], by simp⟩
  let line : Lexing.Gap := ⟨['\n'], by simp [isBlank]⟩
  let layout : Lexing.Layout := ⟨noBlank, [(paren, line), (number, noBlank)]⟩
  have hfaithful : layout.Faithful := by
    rw [Lexing.Layout.Faithful, Lexing.Pieces.faithful_iff_isChain, List.isChain_pair]
    intro _ hgap
    cases hgap
  exact spellings_of_faithful (show layout.text = ")\n09".toList from rfl) hfaithful

/-- Both tokens of the text have a diagnostic of their own. -/
theorem diagnosed_in_order_twoLines :
    ∃ n p, parse (Lexer.ofString ")\n09") = (.ok n, p) ∧
      p.diagnostics = [.noOperand .rparen, .badInteger "09"] ∧
      p.locations.Pairwise (· < ·) ∧ p.locations.length = 2 := by
  obtain ⟨q, hq, hdiagnostics⟩ := parse_of_reads twoLines_reads
  obtain ⟨n, p, hparse, -, hsame⟩ := (sameOutcome_ofString spellings_twoLines).exists_ok hq
  obtain ⟨hordered, -, hlength, -⟩ := diagnosed_in_order hparse
  rw [hsame, hdiagnostics] at hlength
  exact ⟨n, p, hparse, hsame.trans hdiagnostics, hordered, hlength⟩

end Parser

end MonkeySyntax
