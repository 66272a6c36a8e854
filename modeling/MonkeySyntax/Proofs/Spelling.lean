import MonkeySyntax.Proofs.Parser.Agreement
import MonkeySyntax.Proofs.Parser.Delivery
import MonkeySyntax.Proofs.Recovery.Parse

/-!
# Parses of tokens spelled alike

A parse depends on the kinds and literals of its tokens in their order and on nothing else: neither
on positions nor on whether a lexer reads the tokens while the parser runs or they are prepared. The
parsers agree from the start, since both see the end of input behind the tokens, with an empty
literal; so they agree at the end.
-/

namespace MonkeySyntax.Parser

open TokenSource

variable {σ τ : Type} {source : String} {ts : List Token}

/-- Two parses come to the same fault or to trees that differ in positions only, with the same
diagnostics, and both pull the same number of tokens. -/
structure SameOutcome (r : Step σ Node) (r' : Step τ Node) : Prop where
  result : r.1.map Node.unplaced = r'.1.map Node.unplaced
  shown : ∀ n m, r.1 = .ok n → r'.1 = .ok m →
    n.sameTree m ∧ ∀ format, n.render format = m.render format
  diagnostics : r.2.diagnostics = r'.2.diagnostics
  pulled : r.2.pulled = r'.2.pulled

theorem SameOutcome.exists_ok {r : Step σ Node} {r' : Step τ Node} {m : Node} {q : Parser τ}
    (h : SameOutcome r r') (hr' : r' = (.ok m, q)) :
    ∃ n p, r = (.ok n, p) ∧ n.unplaced = m.unplaced ∧ p.diagnostics = q.diagnostics := by
  obtain ⟨hresult, -, hdiagnostics, -⟩ := h
  subst hr'
  obtain ⟨_ | n, p⟩ := r
  · cases hresult
  · exact ⟨n, p, rfl, Except.ok.inj hresult, hdiagnostics⟩

theorem sameOutcome_of_agree [TokenSource σ] [TokenSource τ] {s : σ} {t : τ}
    (h : Agree (ofSource s) (ofSource t)) : SameOutcome (parse s) (parse t) := by
  obtain ⟨hresult, hagree⟩ := h.program
  refine ⟨hresult, ?_, hagree.diagnostics, hagree.pulled⟩
  intro n m hn hm
  have hn : (ofSource s).program.1 = .ok n := hn
  have hm : (ofSource t).program.1 = .ok m := hm
  rw [hn, hm] at hresult
  have hunplaced : n.unplaced = m.unplaced := Except.ok.inj hresult
  exact ⟨Node.sameTree_of_unplaced hunplaced, Node.render_eq_of_unplaced hunplaced⟩

/-- Fresh parsers agree when their sources deliver tokens that are spelled alike. -/
theorem agree_ofSource [TokenSource σ] [TokenSource τ] {s : σ} {t : τ}
    (h : ∀ n, (nth s n).spelling = (nth t n).spelling) : Agree (ofSource s) (ofSource t) where
  sees n := by
    rw [ahead_ofSource, ahead_ofSource, Token.unplaced_eq_iff]
    exact Prod.mk.inj (h n)
  pulled := rfl
  diagnostics := by rw [diagnostics_ofSource, diagnostics_ofSource]

/-! ## Lexers and prepared tokens -/

/-- Prepared tokens are followed by the end of input. -/
theorem spelling_nth_ofList (ts : List Token) (n : Nat) :
    (nth (TokenQueue.ofList ts) n).spelling = (ts.map Token.spelling).getD n (.eof, "") := by
  rw [← ahead_ofSource, ahead_ofSource_ofList]
  exact (List.getD_map ..).symm

theorem spelling_nth_ofString (source : String) (n : Nat) :
    (nth (Lexer.ofString source) n).spelling =
      ((tokenize source).map Token.spelling).getD n (.eof, "") :=
  (Lexer.ofString source).spelling_nth n

/-- The last token of a text is the end of input, and its literal is empty. -/
theorem spellings_eq_append (source : String) :
    (tokenize source).map Token.spelling =
      (tokenize source).dropLast.map Token.spelling ++ [(.eof, "")] := by
  obtain ⟨layout, htext, hfaithful⟩ := Lexing.exists_layout source.toList
  obtain ⟨ts, e, htokens, -, hend⟩ := tokenize_of_faithful htext hfaithful
  rw [htokens, List.dropLast_concat, List.map_append, List.map_singleton, hend]

/-- An end of input behind the tokens makes no difference to what is delivered. -/
theorem getD_concat {α : Type} (xs : List α) (d : α) (n : Nat) :
    (xs ++ [d]).getD n d = xs.getD n d := by
  by_cases hn : n < xs.length
  · exact List.getD_append _ _ _ _ hn
  · rw [List.getD_append_right _ _ _ _ (Nat.le_of_not_lt hn), List.getD_eq_default xs _ (by omega)]
    cases n - xs.length <;> rfl

/-- Parses come to the same when their sources deliver tokens that are spelled alike. -/
theorem sameOutcome_of_spelling [TokenSource σ] [TokenSource τ] {s : σ} {t : τ}
    (h : ∀ n, (nth s n).spelling = (nth t n).spelling) : SameOutcome (parse s) (parse t) :=
  sameOutcome_of_agree (agree_ofSource h)

theorem sameOutcome_ofList {us : List Token} (h : ts.map Token.spelling = us.map Token.spelling) :
    SameOutcome (parse (TokenQueue.ofList ts)) (parse (TokenQueue.ofList us)) := by
  apply sameOutcome_of_spelling
  intro n
  rw [spelling_nth_ofList, spelling_nth_ofList, h]

theorem sameOutcome_ofString
    (h : (tokenize source).map Token.spelling = ts.map Token.spelling ++ [(.eof, "")]) :
    SameOutcome (parse (Lexer.ofString source)) (parse (TokenQueue.ofList ts)) := by
  apply sameOutcome_of_spelling
  intro n
  rw [spelling_nth_ofString, spelling_nth_ofList, h, getD_concat]

/-- A text is parsed as its tokens are, with or without the end of input and wherever they stand.
Hence two texts with the same tokens are parsed alike, whatever blanks there are between these. -/
theorem parse_spelling
    (h : ts.map Token.spelling = (tokenize source).map Token.spelling ∨
      ts.map Token.spelling = (tokenize source).dropLast.map Token.spelling) :
    SameOutcome (parse (Lexer.ofString source)) (parse (TokenQueue.ofList ts)) ∧
      ∀ other, (tokenize other).map Token.spelling = (tokenize source).map Token.spelling →
        SameOutcome (parse (Lexer.ofString source)) (parse (Lexer.ofString other)) := by
  constructor
  · rcases h with hwith | hwithout
    · apply sameOutcome_of_spelling
      intro n
      rw [spelling_nth_ofString, spelling_nth_ofList, hwith]
    · apply sameOutcome_ofString
      rw [spellings_eq_append, hwithout]
  · intro other hother
    apply sameOutcome_of_spelling
    intro n
    rw [spelling_nth_ofString, spelling_nth_ofString, hother]

/-- The text `- a` is parsed as its two tokens are on other lines, and as `-a` is. -/
theorem parse_spelling_minus :
    let ts : List Token := [⟨.minus, "-", 7, 1⟩, ⟨.ident, "a", 9, 4⟩]
    ts.map Token.spelling = (tokenize "- a").dropLast.map Token.spelling ∧
      SameOutcome (parse (Lexer.ofString "- a")) (parse (TokenQueue.ofList ts)) ∧
      (tokenize "-a").map Token.spelling = (tokenize "- a").map Token.spelling ∧
      SameOutcome (parse (Lexer.ofString "- a")) (parse (Lexer.ofString "-a")) := by
  intro ts
  let minus : Lexing.Lexeme := ⟨.minus, ['-'], .operator (by decide)⟩
  let a : Lexing.Lexeme := ⟨.ident, ['a'], .word (by decide) (Lexing.wordKind_getD _)⟩
  let noBlank : Lexing.Gap := ⟨[], by simp⟩
  let blank : Lexing.Gap := ⟨[' '], by simp [isBlank]⟩
  let apart : Lexing.Layout := ⟨noBlank, [(minus, blank), (a, noBlank)]⟩
  let joined : Lexing.Layout := ⟨noBlank, [(minus, noBlank), (a, noBlank)]⟩
  have hneeds : ¬ Lexing.NeedsGap minus a := by decide
  have hends : ∀ g : Lexing.Gap, Lexing.Pieces.Faithful [(minus, g), (a, noBlank)] := by
    intro g
    rw [Lexing.Pieces.faithful_iff_isChain, List.isChain_pair]
    intro hgap
    exact absurd hgap hneeds
  have hapart : (tokenize "- a").map Token.spelling = ts.map Token.spelling ++ [(.eof, "")] :=
    spellings_of_faithful (show apart.text = "- a".toList from rfl) (hends _)
  have hjoined : (tokenize "-a").map Token.spelling = ts.map Token.spelling ++ [(.eof, "")] :=
    spellings_of_faithful (show joined.text = "-a".toList from rfl) (hends _)
  have hspelling : ts.map Token.spelling = (tokenize "- a").dropLast.map Token.spelling := by
    rw [spellings_eq_append] at hapart
    exact (List.append_cancel_right hapart).symm
  have hother : (tokenize "-a").map Token.spelling = (tokenize "- a").map Token.spelling :=
    hjoined.trans hapart.symm
  obtain ⟨hprepared, hrespaced⟩ := parse_spelling (Or.inr hspelling)
  exact ⟨hspelling, hprepared, hother, hrespaced "-a" hother⟩

end MonkeySyntax.Parser
