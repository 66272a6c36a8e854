import MonkeySyntax.Proofs.Parser.Delivery
import MonkeySyntax.Proofs.Recovery.Parse

/-!
# When a parse breaks off

Whatever tokens a source delivers, a parse passes them one after the other and reports every integer
that denotes no number within range. It ends on an end of input, with a program, unless it comes to
stand on a decimal integer with too many digits to be converted. That is the only fault, and it is
raised for the first such integer.
-/

namespace MonkeySyntax

open Recovery TokenSource

namespace Parser

variable {σ : Type} {ts : List Token}

/-- How many tokens the parser has left behind; the current one and the next are in sight. -/
def consumed (p : Parser σ) : Nat := p.pulled - 2

def Answers (r : Step σ Node) : Prop := ∃ ns, r.1 = .ok (.program ns)

/-- What a parse comes to on the tokens that its source delivers. -/
structure Settles (ts : List Token) (r : Step σ Node) : Prop where
  /-- The integers left behind were converted, and those without a number were reported. -/
  reports : Reports (ts.take r.2.consumed) r.2.diagnostics
  /-- The parser stands on the token behind those, or on an end of input behind them all. -/
  stands : ts[r.2.consumed]? = some r.2.cur ∨ ts.length ≤ r.2.consumed ∧ r.2.cur.kind = .eof
  ends : Answers r ∧ r.2.cur.kind = .eof ∨
    ∃ e, r.1 = .error (.overlong e) ∧ r.2.cur.kind = .int ∧ readInt64 r.2.cur.literal = .error e

namespace Settles

variable {r : Step σ Node}

theorem kind_cur (h : Settles ts r) (hanswers : Answers r) : r.2.cur.kind = .eof := by
  rcases h.ends with ⟨-, heof⟩ | ⟨e, hfault, -⟩
  · exact heof
  · obtain ⟨ns, hns⟩ := hanswers
    rw [hfault] at hns
    cases hns

theorem answers_of_withinLimit (h : Settles ts r) (hts : ∀ t ∈ ts, t.WithinLimit) : Answers r := by
  rcases h.ends with ⟨hanswers, -⟩ | ⟨e, -, hkind, hread⟩
  · exact hanswers
  · rcases h.stands with hcur | ⟨-, heof⟩
    · have hlimit := hts _ (List.mem_of_getElem? hcur)
      exact absurd hread (hlimit.readInt64_ne_error hkind e)
    · rw [hkind] at heof
      cases heof

theorem cur_eq (h : Settles ts r) (hlt : r.2.consumed < ts.length) :
    ts[r.2.consumed] = r.2.cur := by
  rcases h.stands with hcur | ⟨hle, -⟩
  · exact (List.getElem?_eq_some_iff.mp hcur).2
  · omega

/-- Where no end of input stands in front of a token, every token counts. -/
theorem answers_iff (h : Settles ts r) (hts : ∀ t ∈ ts.dropLast, t.kind ≠ .eof) :
    Answers r ↔ ∀ t ∈ ts, t.WithinLimit := by
  constructor
  · intro hanswers t ht
    have heof := h.kind_cur hanswers
    obtain ⟨i, hi, rfl⟩ := List.mem_iff_getElem.mp ht
    rcases Nat.lt_trichotomy i r.2.consumed with hlt | heq | hgt
    · apply h.reports.withinLimit
      exact List.mem_take_iff_getElem.mpr ⟨i, by omega, rfl⟩
    · subst heq
      apply Token.withinLimit_of_ne_int
      simp [h.cur_eq hi, heof]
    · have hfront : r.2.consumed < ts.dropLast.length := by
        rw [List.length_dropLast]
        omega
      have hcur := h.cur_eq (by omega)
      rw [← List.getElem_dropLast hfront] at hcur
      exact absurd heof (hcur ▸ hts _ (List.getElem_mem hfront))
  · exact h.answers_of_withinLimit

end Settles

variable [TokenSource σ] {s : σ}

@[simp] theorem consumed_follow_ofSource (s : σ) (ms : List Move) :
    ((ofSource s).follow ms).consumed = Move.advances ms := by
  rw [consumed, pulled_follow, pulled_ofSource]
  omega

/-- Tokens that were passed are those that the source delivers first. -/
theorem Passes.reports_take {ms : List Move} {us : List Token} (hdelivers : Delivers s ts)
    (h : (ofSource s).Passes ms us) :
    Reports (ts.take (Move.advances ms)) (Move.diagnostics ms) := by
  obtain ⟨es, hus, hes⟩ := h.faces.eq_take_append hdelivers
  have hreports := h.reports
  rw [hus, ← h.advances] at hreports
  apply hreports.of_append_ne_int
  intro e he
  simp [hes e he]

theorem stands_follow (hdelivers : Delivers s ts) (ms : List Move) :
    ts[Move.advances ms]? = some ((ofSource s).follow ms).cur ∨
      ts.length ≤ Move.advances ms ∧ ((ofSource s).follow ms).cur.kind = .eof := by
  have hcur : ((ofSource s).follow ms).cur = nth s (Move.advances ms) := by
    rw [← ahead_zero, ahead_follow, ahead_ofSource, Nat.add_zero]
  rw [hcur]
  by_cases hlt : Move.advances ms < ts.length
  · left
    rw [List.getElem?_eq_getElem hlt, hdelivers.nth_eq hlt]
  · right
    have hle : ts.length ≤ Move.advances ms := Nat.le_of_not_lt hlt
    exact ⟨hle, hdelivers.kind_nth hle⟩

theorem settles_of_passes {ms : List Move} {us : List Token} {r : Step σ Node}
    (hdelivers : Delivers s ts) (hpasses : (ofSource s).Passes ms us)
    (hconsumed : r.2.consumed = ((ofSource s).follow ms).consumed)
    (hcur : r.2.cur = ((ofSource s).follow ms).cur)
    (hdiagnostics : r.2.diagnostics = ((ofSource s).follow ms).diagnostics)
    (hends : Answers r ∧ r.2.cur.kind = .eof ∨
      ∃ e, r.1 = .error (.overlong e) ∧ r.2.cur.kind = .int ∧
        readInt64 r.2.cur.literal = .error e) : Settles ts r where
  reports := by
    rw [hconsumed, consumed_follow_ofSource, hdiagnostics, diagnostics_follow,
      diagnostics_ofSource, List.nil_append]
    exact hpasses.reports_take hdelivers
  stands := by
    rw [hconsumed, consumed_follow_ofSource, hcur]
    exact stands_follow hdelivers ms
  ends := hends

theorem settles_of_delivers (hdelivers : Delivers s ts) : Settles ts (parse s) := by
  rcases (ofSource s).statements_cases with ⟨ss, hss⟩ | hover
  · obtain ⟨e, hparse⟩ := parse_of_facesProgram hss
    have hend : ((ofSource s).follow (Program.moves ss)).cur.kind = .eof := by
      rw [← ahead_zero, ahead_follow, Program.advances_moves]
      exact hss.ends
    rw [hparse]
    apply settles_of_passes hdelivers hss.passes
    · rfl
    · rfl
    · rw [diagnostics_note]
      exact List.append_nil _
    · exact Or.inl ⟨⟨_, rfl⟩, hend⟩
  · obtain ⟨ms, us, e, hparse, hpasses, hkind, hread⟩ : (ofSource s).Overlong (parse s) :=
      hover.andThen _
    rw [hparse]
    apply settles_of_passes hdelivers hpasses
    · rfl
    · rfl
    · rfl
    · exact Or.inr ⟨e, rfl, hkind, hread⟩

/-! ## Prepared tokens and source texts -/

theorem settles_ofList (ts : List Token) : Settles ts (parse (TokenQueue.ofList ts)) :=
  settles_of_delivers (TokenQueue.delivers ts 0)

theorem settles_ofString (source : String) :
    Settles (tokenize source) (parse (Lexer.ofString source)) :=
  settles_of_delivers (Lexer.ofString source).delivers

/-- A parse answers a program unless a decimal integer that it comes up to has too many digits. -/
theorem parse_settles (ts : List Token) (source : String) :
    (Settles ts (parse (TokenQueue.ofList ts)) ∧
      ((∀ t ∈ ts, t.WithinLimit) → Answers (parse (TokenQueue.ofList ts))) ∧
      ((∀ t ∈ ts, t.kind ≠ .eof) →
        (Answers (parse (TokenQueue.ofList ts)) ↔ ∀ t ∈ ts, t.WithinLimit))) ∧
    Settles (tokenize source) (parse (Lexer.ofString source)) ∧
      (Answers (parse (Lexer.ofString source)) ↔ ∀ t ∈ tokenize source, t.WithinLimit) := by
  have hlist := settles_ofList ts
  have htext := settles_ofString source
  refine ⟨⟨hlist, hlist.answers_of_withinLimit, ?_⟩, htext, ?_⟩
  · intro hts
    apply hlist.answers_iff
    intro t ht
    exact hts t (List.dropLast_subset ts ht)
  · exact htext.answers_iff (Lexer.ofString source).ne_eof_of_mem_dropLast

/-- A decimal literal of so many ones. -/
def ones (n : Nat) : String := String.ofList (List.replicate n '1')

theorem grouped?_ones (n : Nat) :
    Numeral.grouped? 10 (List.replicate n '1') = some (List.replicate n 1) := by
  induction n with
  | zero => rfl
  | succ n ih =>
    have hdigit : Numeral.digit? 10 '1' = some 1 := by decide
    rw [List.replicate_succ, List.replicate_succ, Numeral.grouped?, hdigit, ih]
    · rfl
    · simp

theorem readInt64_ones {n : Nat} (h : OverlongNumeral.limit < n) :
    readInt64 (ones n) = .error ⟨n⟩ := by
  obtain ⟨m, rfl⟩ : ∃ m, n = m + 1 := ⟨n - 1, by omega⟩
  have hnumeral : Numeral.ofChars? (ones (m + 1)).toList =
      some ⟨false, 10, List.replicate (m + 1) 1⟩ := by
    have hbased : Numeral.based? 10 (List.replicate (m + 1) '1') =
        some (10, List.replicate (m + 1) 1) := by
      rw [Numeral.based?, grouped?_ones, List.replicate_succ]
    rw [List.replicate_succ] at hbased
    rw [ones, String.toList_ofList, List.replicate_succ]
    simp [Numeral.ofChars?, Numeral.body?, hbased]
  rw [readInt64, hnumeral]
  simp [Numeral.overlong, h]

theorem not_withinLimit_ones {n : Nat} (h : OverlongNumeral.limit < n) {t : Token}
    (hspelling : t.spelling = (.int, ones n)) : ¬ t.WithinLimit := by
  obtain ⟨hkind, hliteral⟩ := Prod.mk.inj hspelling
  apply Token.not_withinLimit hkind
  rw [hliteral]
  exact readInt64_ones h

theorem exists_mem_tokenize_ones {n : Nat} (h : n ≠ 0) :
    ∃ t ∈ tokenize (ones n), t.spelling = (.int, ones n) := by
  have hnumber : Lexing.IsNumber (List.replicate n '1') := by
    constructor
    · simpa using h
    · intro d hd
      rw [List.eq_of_mem_replicate hd]
      decide
  obtain ⟨t, e, htokens, hspelling, -⟩ := tokenize_lexeme ⟨.int, _, .number hnumber⟩
  exact ⟨t, htokens ▸ List.mem_cons_self, hspelling⟩

/-- An integer of 4301 digits breaks a parse off, even where nothing else is there. -/
theorem not_parse_answers :
    (¬ ∀ ts : List Token, Answers (parse (TokenQueue.ofList ts))) ∧
      ¬ ∀ source : String, Answers (parse (Lexer.ofString source)) := by
  have hlimit : OverlongNumeral.limit < 4301 := by decide
  constructor
  · intro hall
    have hone := (settles_ofList [⟨.int, ones 4301, 1, 1⟩]).answers_iff (by simp)
    exact not_withinLimit_ones hlimit rfl (hone.mp (hall _) _ List.mem_cons_self)
  · intro hall
    obtain ⟨t, ht, hspelling⟩ := @exists_mem_tokenize_ones 4301 (by decide)
    have hone := (settles_ofString (ones 4301)).answers_iff
      (Lexer.ofString (ones 4301)).ne_eof_of_mem_dropLast
    exact not_withinLimit_ones hlimit hspelling (hone.mp (hall _) t ht)

end Parser

end MonkeySyntax
