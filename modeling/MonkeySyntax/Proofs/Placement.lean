import MonkeySyntax.Proofs.Decomposition
import MonkeySyntax.Proofs.Lexing.Coordinates

/-!
# The places of tokens

A text is taken apart into its tokens in one way, so that each of them has one offset in the text.
The main statement is that the literal of a token stands at that offset, and that line and column of
the token are those of the offset; they come from a cursor, for which the same is said of any
operations in any order, wherever it starts inside the text.
-/

namespace MonkeySyntax

open Lexing

namespace Lexing

/-- The layout takes the text apart into its tokens. -/
structure Layout.Divides (l : Layout) (s : String) : Prop where
  text : l.text = s.toList
  tokens : (tokenize s).map Token.spelling = l.lexemes.map Lexeme.spelling ++ [(.eof, "")]

/-- Where the lexemes start, the first of them at the given offset. -/
def Pieces.offsets (i : Nat) : Pieces → List Nat
  | [] => []
  | p :: ps => i :: offsets (i + (p.1.text ++ p.2.1).length) ps

/-- Where the lexemes start in the text of the layout. -/
def Layout.offsets (l : Layout) : List Nat := l.pieces.offsets l.lead.1.length

/-- Only the faithful layout of a text takes it apart into its tokens. -/
theorem Layout.Divides.eq {l m : Layout} {s : String} (h : l.Divides s) (htext : m.text = s.toList)
    (hfaithful : m.Faithful) : l = m := by
  have hspelling := h.tokens.symm.trans (spellings_of_faithful htext hfaithful)
  have hlexemes := Lexeme.spelling_injective.list_map (List.append_cancel_right hspelling)
  exact Layout.eq_of_text_eq hlexemes (h.text.trans htext.symm)

theorem Layout.existsUnique_divides (s : String) : ∃! l : Layout, l.Divides s := by
  obtain ⟨m, htext, hfaithful⟩ := exists_layout s.toList
  refine ⟨m, ⟨htext, spellings_of_faithful htext hfaithful⟩, ?_⟩
  intro l hl
  exact hl.eq htext hfaithful

end Lexing

/-- The literal stands in the text at the offset, and line and column are those of the offset. -/
structure Token.StandsAt (t : Token) (s : String) (i : Nat) : Prop where
  literal : (s.toList.drop i).take t.literal.length = t.literal.toList
  line : t.line = 1 + (s.toList.take i).count '\n'
  col : t.col = 1 + ((s.toList.take i).rtakeWhile (· ≠ '\n')).length

section

variable {s : String} {before : List Char}

/-- What is written where a cursor has come to is a token at that offset. -/
theorem standsAt_past (kind : TokenKind) {w next : List Char}
    (h : before ++ (w ++ next) = s.toList) :
    Token.StandsAt ⟨kind, String.ofList w, ((Cursor.ofString s).past before).line,
      ((Cursor.ofString s).past before).column⟩ s before.length := by
  have hfront : s.toList.take before.length = before := by
    rw [← h, List.take_left]
  have hline : (Cursor.ofString s).line = 1 := rfl
  have hcolumn : (Cursor.ofString s).column = 1 := rfl
  constructor
  · rw [← h, List.drop_left, String.length_ofList, List.take_left, String.toList_ofList]
  · rw [Cursor.line_past, hfront, hline]
  · rw [Cursor.column_past, hfront, hcolumn, ite_self]

theorem forall₂_standsAt {ps : Pieces} (h : before ++ ps.text = s.toList) :
    List.Forall₂ (fun t i => t.StandsAt s i) (ps.tokens ((Cursor.ofString s).past before))
      (ps.offsets before.length ++ [s.length]) := by
  induction ps generalizing before with
  | nil =>
    have hend : before.length = s.length := by
      rw [← String.length_toList, ← h, Pieces.text_nil, List.append_nil]
    rw [← hend]
    exact .cons (standsAt_past .eof h) .nil
  | cons p ps ih =>
    rw [Pieces.text_cons] at h
    have hrest : (before ++ (p.1.text ++ p.2.1)) ++ Pieces.text ps = s.toList := by
      rw [← h]
      simp
    have hbehind := ih hrest
    rw [Cursor.past_append, List.length_append] at hbehind
    exact .cons (standsAt_past p.1.kind h) hbehind

/-- Wherever a text is divided, its tokens stand at the offsets. -/
theorem standsAt_of_divides {l : Layout} (h : l.Divides s) :
    List.Forall₂ (fun t i => t.StandsAt s i) (tokenize s) (l.offsets ++ [s.length]) := by
  obtain ⟨m, htext, hfaithful⟩ := exists_layout s.toList
  obtain rfl := h.eq htext hfaithful
  have hrest : (Cursor.ofString s).rest = l.text := (Cursor.rest_ofString s).trans htext.symm
  have htokens : tokenize s = l.pieces.tokens ((Cursor.ofString s).past l.lead.1) :=
    Lexer.tokens_eq_of_faithful (l := Lexer.ofString s) (Int.le_refl 0) hrest hfaithful
  rw [htokens]
  exact forall₂_standsAt htext

end

/-- Every token stands where it says, the end of input behind the last character; and whatever a
cursor is made to do, its position, line and column follow from the characters that it has read. -/
theorem tokens_placed :
    (∀ s : String, (∃! l : Layout, l.Divides s) ∧ ∀ l : Layout, l.Divides s →
      List.Forall₂ (fun t i => t.StandsAt s i) (tokenize s) (l.offsets ++ [s.length])) ∧
    ∀ (text : Array Char) (p : Nat) (line column : Int) (os : List Cursor.Operation),
      let c : Cursor := ⟨text, p, line, column⟩
      let d := (c.perform os).2
      let cs := c.readBy os
      cs = (text.toList.drop p).take cs.length ∧
        d.position = p + cs.length ∧
        d.line = line + cs.count '\n' ∧
        d.column =
          (if '\n' ∈ cs then 1 + ((cs.rtakeWhile (· ≠ '\n')).length : Int)
            else column + cs.length) ∧
        ∀ e, d.next = .error e → Cursor.Operation.run .next d = (.failed e, d) := by
  constructor
  · intro s
    exact ⟨Layout.existsUnique_divides s, fun l hl => standsAt_of_divides hl⟩
  · intro text p line column os c d cs
    have hposition : 0 ≤ c.position := Int.natCast_nonneg p
    obtain ⟨hfront, hbehind⟩ := Cursor.perform_eq_past hposition os
    have hd : d = c.past cs := hbehind
    have hrest : c.rest = text.toList.drop p := rfl
    refine ⟨?_, ?_, ?_, ?_, ?_⟩
    · rw [← hrest]
      exact List.prefix_iff_eq_take.mp hfront
    · rw [hd, Cursor.past_position]
    · rw [hd, Cursor.line_past]
    · rw [hd]
      by_cases hfeed : '\n' ∈ cs
      · rw [if_pos hfeed, Cursor.column_past_of_mem hfeed]
      · rw [if_neg hfeed, Cursor.column_past_of_notMem hfeed]
    · intro e he
      simp only [Cursor.Operation.run, he]

end MonkeySyntax
