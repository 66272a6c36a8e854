import Mathlib.Data.List.GetD
import MonkeySyntax.Proofs.Lexing.Scan
import MonkeySyntax.Proofs.Parser.Moves

/-!
# What a source delivers

A source delivers tokens in their order, and nothing but the end of input behind them. Prepared
tokens are delivered as they are, with any end of input among them, and a lexer delivers its tokens.
A parser comes to stand on what its source delivers, one token after the other.
-/

namespace MonkeySyntax

namespace TokenSource

variable {σ : Type} [TokenSource σ] {s : σ} {ts : List Token}

/-- The token that is pulled behind a number of others. -/
def nth (s : σ) : Nat → Token
  | 0 => (pull s).1
  | n + 1 => nth (pull s).2 n

def Delivers (s : σ) : List Token → Prop
  | [] => ∀ n, (nth s n).kind = .eof
  | t :: ts => (pull s).1 = t ∧ Delivers (pull s).2 ts

theorem kind_nth_of_exhausted (h : remaining s = 0) (n : Nat) : (nth s n).kind = .eof := by
  obtain ⟨hkind, hrest⟩ := exhausted s h
  induction n generalizing s with
  | zero => exact hkind
  | succ n ih =>
    obtain ⟨hkind', hrest'⟩ := exhausted _ hrest
    exact ih hrest hkind' hrest'

namespace Delivers

theorem nth_eq (h : Delivers s ts) {i : Nat} (hi : i < ts.length) : nth s i = ts[i] := by
  induction ts generalizing s i with
  | nil => exact absurd hi (Nat.not_lt_zero i)
  | cons t ts ih =>
    obtain ⟨hhead, hrest⟩ := h
    cases i with
    | zero => exact hhead
    | succ i => exact ih hrest (by simpa using hi)

theorem kind_nth (h : Delivers s ts) {i : Nat} (hi : ts.length ≤ i) : (nth s i).kind = .eof := by
  induction ts generalizing s i with
  | nil => exact h i
  | cons t ts ih =>
    cases i with
    | zero => exact absurd hi (by simp)
    | succ i => exact ih h.2 (by simpa using hi)

end Delivers

end TokenSource

open TokenSource

theorem TokenQueue.delivers (ts : List Token) (served : Nat) :
    Delivers (TokenQueue.mk ts served) ts := by
  induction ts generalizing served with
  | nil =>
    intro n
    exact kind_nth_of_exhausted rfl n
  | cons t ts ih => exact ⟨rfl, ih (served + 1)⟩

/-! ## Lexers -/

namespace Cursor

variable {c : Cursor}

theorem ofOperator?_of_operator? {k : TokenKind} {w : List Char} (h : c.operator? = some (k, w)) :
    TokenKind.ofOperator? w = some k := by
  have hone : ∀ a, (TokenKind.ofOperator? [a]).map (·, [a]) = some (k, w) →
      TokenKind.ofOperator? w = some k := by
    intro a ha
    obtain ⟨k', hk, hpair⟩ := Option.map_eq_some_iff.mp ha
    obtain ⟨rfl, rfl⟩ := Prod.mk.inj hpair
    exact hk
  unfold operator? at h
  split at h
  · split at h
    · rename_i hpair
      obtain ⟨rfl, rfl⟩ := Prod.mk.inj (Option.some.inj h)
      exact hpair
    · exact hone _ h
  · exact hone _ h
  · cases h

/-- No character starts an end of input. -/
theorem lexeme_ne_eof (c : Cursor) (ch : Char) : (c.lexeme ch).1 ≠ .eof := by
  unfold lexeme
  split
  · exact (Lexing.wordKind_getD _).ne_eof
  · split
    · simp
    · cases hoperator : c.operator? with
      | none => simp
      | some r =>
        intro heof
        have hlisted := ofOperator?_of_operator? hoperator
        exact Lexing.ofOperator?_ne_eof (heof ▸ hlisted)

/-- Behind an end of input there is nothing left to read. -/
theorem left_scan_of_eof (h : c.InReach) (heof : c.scan.1.kind = .eof) : c.scan.2.left = 0 := by
  cases hread : c.skipBlanks.read? with
  | none =>
    have hend := left_eq_zero_iff.mpr ((read?_eq_none_iff (skipBlanks_inReach h)).mp hread)
    simp [scan, deliver, hread, hend]
  | some ch =>
    simp only [scan, deliver, hread] at heof
    exact absurd heof (lexeme_ne_eof _ _)

theorem spelling_scan_of_eof (heof : c.scan.1.kind = .eof) : c.scan.1.spelling = (.eof, "") := by
  cases hread : c.skipBlanks.read? with
  | none => simp [scan, deliver, hread, Token.spelling]
  | some ch =>
    simp only [scan, deliver, hread] at heof
    exact absurd heof (lexeme_ne_eof _ _)

end Cursor

theorem Lexer.delivers (l : Lexer) : Delivers l l.tokens := by
  fun_induction tokens l with
  | case1 l hleft =>
    have hend := (Cursor.scan_atEnd l.inReach hleft).2
    exact ⟨rfl, kind_nth_of_exhausted hend⟩
  | case2 l hleft heof =>
    have hend := Cursor.left_scan_of_eof l.inReach heof
    exact ⟨rfl, kind_nth_of_exhausted hend⟩
  | case3 l hleft heof ih => exact ⟨rfl, ih⟩

theorem Lexer.tokens_ne_nil (l : Lexer) : l.tokens ≠ [] := by
  rw [tokens_eq]
  split <;> simp

/-- Only the last token of a lexer is an end of input. -/
theorem Lexer.ne_eof_of_mem_dropLast (l : Lexer) : ∀ t ∈ l.tokens.dropLast, t.kind ≠ .eof := by
  fun_induction tokens l with
  | case1 | case2 => simp
  | case3 l hleft heof ih =>
    intro t ht
    rw [List.dropLast_cons_of_ne_nil l.next.2.tokens_ne_nil] at ht
    rcases List.mem_cons.mp ht with rfl | ht
    · exact heof
    · exact ih t ht

theorem Lexer.eof_of_mem_getLast? (l : Lexer) : ∀ t ∈ l.tokens.getLast?, t.kind = .eof := by
  fun_induction tokens l with
  | case1 l hleft =>
    have heof : l.next.1.kind = .eof := (Cursor.scan_atEnd l.inReach hleft).1
    simpa using heof
  | case2 l hleft heof => simpa using heof
  | case3 l hleft heof ih =>
    rw [List.getLast?_cons_of_ne_nil l.next.2.tokens_ne_nil]
    exact ih

theorem Lexer.length_tokens (l : Lexer) :
    l.tokens.length = l.tokens.countP (·.kind ≠ .eof) + 1 := by
  have hfront := l.ne_eof_of_mem_dropLast
  have hlast := l.eof_of_mem_getLast?
  rcases List.eq_nil_or_concat' l.tokens with hnil | ⟨ts, e, htokens⟩
  · exact absurd hnil l.tokens_ne_nil
  · rw [htokens, List.dropLast_concat] at hfront
    rw [htokens, List.getLast?_concat] at hlast
    have heof := hlast e rfl
    have hall : ts.countP (·.kind ≠ .eof) = ts.length := by simpa using hfront
    rw [htokens, List.length_append, List.countP_append, hall]
    simp [heof]

theorem Lexer.spelling_nth_of_eof {l : Lexer} {n : Nat} (heof : (nth l n).kind = .eof) :
    (nth l n).spelling = (.eof, "") := by
  induction n generalizing l with
  | zero => exact Cursor.spelling_scan_of_eof heof
  | succ n ih => exact ih heof

/-- Spelling by spelling a lexer delivers its tokens, and the end of input behind them. -/
theorem Lexer.spelling_nth (l : Lexer) (n : Nat) :
    (nth l n).spelling = (l.tokens.map Token.spelling).getD n (.eof, "") := by
  by_cases hn : n < l.tokens.length
  · rw [l.delivers.nth_eq hn, List.getD_eq_getElem _ _ (by simpa using hn), List.getElem_map]
  · have hle : l.tokens.length ≤ n := Nat.le_of_not_lt hn
    rw [List.getD_eq_default _ _ (by simpa using hle)]
    exact spelling_nth_of_eof (l.delivers.kind_nth hle)

/-! ## Parsers -/

namespace Parser

variable {σ : Type} [TokenSource σ] {s : σ} {ts us : List Token}

theorem ahead_eq_nth (p : Parser σ) (n : Nat) : p.ahead (n + 2) = nth p.source n := by
  induction n generalizing p with
  | zero => rfl
  | succ n ih => exact ih p.advance

theorem ahead_ofSource (s : σ) (n : Nat) : (ofSource s).ahead n = nth s n :=
  (Parser.mk s .endOfInput .endOfInput 0 []).ahead_eq_nth n

/-- What stands in front of a fresh parser is what its source delivers, and the end of input. -/
theorem Faces.eq_take_append (hdelivers : Delivers s ts) (h : (ofSource s).Faces us) :
    ∃ es, us = ts.take us.length ++ es ∧ ∀ e ∈ es, e.kind = .eof := by
  rw [faces_iff_ahead] at h
  simp only [ahead_ofSource] at h
  refine ⟨us.drop ts.length, ?_, ?_⟩
  · have hfront : ts.take us.length = us.take ts.length := by
      apply List.ext_getElem
      · simp only [List.length_take]
        omega
      · intro i hi hi'
        simp only [List.length_take] at hi
        have hts : i < ts.length := by omega
        have hus : i < us.length := by omega
        rw [List.getElem_take, List.getElem_take, ← hdelivers.nth_eq hts, h i hus]
    rw [hfront, List.take_append_drop]
  · intro e he
    obtain ⟨i, hi, rfl⟩ := List.mem_iff_getElem.mp he
    rw [List.length_drop] at hi
    have hus : ts.length + i < us.length := by omega
    rw [List.getElem_drop, ← h _ hus]
    exact hdelivers.kind_nth (Nat.le_add_right _ _)

end Parser

end MonkeySyntax
