import MonkeySyntax.Proofs.Lexing.Scan

/-!
# Decomposition of a text into tokens

The tokens of a text and the blanks between them make up the text, and no token could be longer.
Read the other way round, lexemes that are written out with blanks come back as the tokens exactly
if a blank stands wherever two neighbours need one.
-/

namespace MonkeySyntax

open Lexing

theorem Lexing.Lexeme.spelling_injective : Function.Injective Lexeme.spelling := by
  intro a b h
  obtain ⟨hkind, htext⟩ := Prod.mk.inj h
  obtain ⟨k, w, ha⟩ := a
  obtain ⟨k', w', hb⟩ := b
  obtain rfl : k = k' := hkind
  obtain rfl : w = w' := String.ofList_inj.mp htext
  rfl

/-- The literals of the tokens are the texts of the lexemes. -/
theorem flatMap_literal {ts : List Token} {as : List Lexeme}
    (h : ts.map Token.spelling = as.map Lexeme.spelling) :
    ts.flatMap (fun t => t.literal.toList) = as.flatMap Lexeme.text := by
  have hliteral := congrArg (List.flatMap fun x => x.2.toList) h
  simpa [List.flatMap_map, Token.spelling, Lexeme.spelling] using hliteral

/-- A token of a lexeme has a literal, and is not the end of input. -/
theorem token_of_lexeme {ts : List Token} {as : List Lexeme}
    (h : ts.map Token.spelling = as.map Lexeme.spelling) :
    ∀ t ∈ ts, t.kind ≠ .eof ∧ t.literal ≠ "" := by
  intro t ht
  obtain ⟨a, -, ha⟩ := List.mem_map.mp (h ▸ List.mem_map_of_mem ht)
  obtain ⟨hkind, hliteral⟩ := Prod.mk.inj ha
  refine ⟨hkind ▸ a.kind_ne_eof, fun hempty => a.text_ne_nil ?_⟩
  rw [hempty, ← String.ofList_nil] at hliteral
  exact String.ofList_inj.mp hliteral

/-- The tokens of a text are the lexemes of a layout of it in which none could be longer, and one
end of input. -/
theorem tokenize_decomposes (s : String) :
    ∃ (layout : Layout) (ts : List Token) (e : Token),
      tokenize s = ts ++ [e] ∧ e.kind = .eof ∧ e.literal = "" ∧
        (∀ t ∈ ts, t.kind ≠ .eof ∧ t.literal ≠ "") ∧
        ts.map Token.spelling = layout.lexemes.map Lexeme.spelling ∧
        s.toList = layout.lead.1 ++ layout.pieces.flatMap (fun p => p.1.text ++ p.2.1) ∧
        (∀ before p behind next, layout.pieces = before ++ p :: behind →
          next = p.2.1 ++ behind.flatMap (fun q => q.1.text ++ q.2.1) →
          p.1.EndsBefore next ∧
            ∀ cs, cs ≠ [] → cs <+: next → ∀ k, ¬ IsLexeme k (p.1.text ++ cs)) ∧
        ts.flatMap (fun t => t.literal.toList) = s.toList.filter fun c => !isBlank c := by
  obtain ⟨layout, htext, hfaithful⟩ := exists_layout s.toList
  obtain ⟨ts, e, htokens, hspelling, hend⟩ := tokenize_of_faithful htext hfaithful
  obtain ⟨hkind, hliteral⟩ := Prod.mk.inj hend
  refine ⟨layout, ts, e, htokens, hkind, hliteral, token_of_lexeme hspelling, hspelling,
    htext.symm, ?_, ?_⟩
  · rintro before p behind next hpieces rfl
    have hends := hfaithful.endsBefore hpieces
    exact ⟨hends, Lexeme.endsBefore_iff.mp hends⟩
  · rw [flatMap_literal hspelling, layout.flatMap_text, htext]

/-- Lexemes come back from the text of a layout exactly if a blank stands wherever it has to. -/
theorem tokenize_layout_iff (layout : Layout) :
    (tokenize (String.ofList layout.text)).map Token.spelling =
        layout.lexemes.map Lexeme.spelling ++ [(.eof, "")] ↔
      layout.pieces.IsChain fun p q => NeedsGap p.1 q.1 → p.2.1 ≠ [] := by
  rw [← Pieces.faithful_iff_isChain]
  constructor
  · intro h
    obtain ⟨faithful, htext, hfaithful⟩ := exists_layout layout.text
    have hread := htext.trans String.toList_ofList.symm
    have hspelling := (spellings_of_faithful hread hfaithful).symm.trans h
    have hlexemes := Lexeme.spelling_injective.list_map (List.append_cancel_right hspelling)
    exact Layout.eq_of_text_eq hlexemes htext ▸ hfaithful
  · exact fun h => spellings_of_faithful String.toList_ofList.symm h

end MonkeySyntax
