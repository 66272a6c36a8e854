import MonkeySyntax.Proofs.Numerals
import MonkeySyntax.Proofs.Parser.Delivery
import MonkeySyntax.Proofs.Recovery.Clean
import MonkeySyntax.Proofs.Recovery.Parse
import MonkeySyntax.Text.Digits

/-!
# Numerals with a sign

A number is written in decimal, a minus sign before it if it is negative. The lexer parts the sign
from the digits and the range is checked on the digits alone. So the main statement finds every
64-bit integer but the least, which is one further from zero than the greatest.
-/

namespace MonkeySyntax

/-! ## Decimal numerals -/

namespace Text

open Grammar Numeral

/-- The values of the digits of a number, the most significant first. -/
def digitValues (n : Nat) : List Nat := (decimal n).map fun c => c.toNat - '0'.toNat

theorem isDigit_of_ascii {c : Char} (h : c.isDigit) : IsDigit 10 c (c.toNat - '0'.toNat) := by
  have hrange : '0'.val ≤ c.val ∧ c.val ≤ '9'.val := by
    simpa [Char.isDigit] using h
  have hrow : ∀ d ≤ '9'.toNat - '0'.toNat, d < 10 ∧ InRow d (Char.ofNat ('0'.toNat + d)) := by
    decide
  exact of_between (P := fun d c => IsDigit 10 c d) hrow hrange

theorem grouped_of_ascii {cs : List Char} (h : ∀ c ∈ cs, c.isDigit) :
    Grouped 10 cs (cs.map fun c => c.toNat - '0'.toNat) := by
  induction cs with
  | nil => exact .nil
  | cons c cs ih =>
    obtain ⟨hc, hcs⟩ := List.forall_mem_cons.mp h
    exact .digit (isDigit_of_ascii hc) (ih hcs)

theorem body_decimal (n : Nat) : Body (decimal n) 10 (digitValues n) := by
  by_cases hzero : n = 0
  · subst hzero
    rw [digitValues, decimal_of_lt (by decide)]
    exact .zero
  · obtain ⟨c, cs, hcons⟩ := List.exists_cons_of_ne_nil (decimal_ne_nil n)
    have hhead := head?_decimal_ne_zero hzero
    have hdigits := isDigit_of_mem_decimal n
    rw [hcons] at hhead hdigits
    obtain ⟨hc, hcs⟩ := List.forall_mem_cons.mp hdigits
    have hdigit := isDigit_of_ascii hc
    have hne : c.toNat - '0'.toNat ≠ 0 := by
      intro heq
      rw [heq] at hdigit
      exact hhead (congrArg some (eq_zero_of_isDigit hdigit))
    rw [digitValues, hcons]
    exact .decimal hdigit hne (grouped_of_ascii hcs)

/-- The digits of a number have it as their positional value, with either sign. -/
theorem positional_digitValues (n : Nat) :
    positional ⟨false, 10, digitValues n⟩ = n ∧
      positional ⟨true, 10, digitValues n⟩ = -(n : Int) := by
  have hmagnitude : ∀ negative, magnitude ⟨negative, 10, digitValues n⟩ = n := by
    intro negative
    rw [magnitude, digitValues, List.foldl_map]
    exact foldl_decimal n
  simp [← value_eq_positional, value, hmagnitude]

/-- What is read from the digits of a number that is no further from zero than the least integer. -/
theorem readInt64_decimal {n : Nat} (h : n ≤ 2 ^ 63) :
    readInt64 (String.ofList (decimal n)) = .ok (if n < 2 ^ 63 then some (n : Int) else none) := by
  obtain ⟨hvalue, hnegative⟩ := positional_digitValues n
  have hread := ofChars?_of_spells (.plain (body_decimal n))
  -- behind a minus sign the number is in range up to the bound, so there are not too many digits
  have hshort := not_overlong (.minus (body_decimal n)) (by omega) (by omega)
  have hover : overlong ⟨false, 10, digitValues n⟩ = false := by
    rw [← Bool.not_eq_true, overlong_iff]
    exact hshort
  rw [readInt64, String.toList_ofList, hread]
  simp only [hover, Bool.false_eq_true, if_false, value_eq_positional, hvalue, int64Min_eq,
    int64Max_eq]
  by_cases hlt : n < 2 ^ 63
  · rw [if_pos hlt, if_pos (by omega)]
  · rw [if_neg hlt, if_neg (by omega)]

end Text

/-! ## Sources -/

namespace Lexing

def Lexeme.minus : Lexeme := ⟨.minus, ['-'], .operator (by decide)⟩

def Lexeme.number (n : Nat) : Lexeme :=
  ⟨.int, Text.decimal n, .number ⟨Text.decimal_ne_nil n, Text.isDigit_of_mem_decimal n⟩⟩

/-- The sign is a lexeme of its own, so that no numeral in a source has one. -/
def sign (v : Int) : List Lexeme := if v < 0 then [.minus] else []

def signedLexemes (v : Int) : List Lexeme := sign v ++ [.number v.natAbs]

/-- The sign and the digits of a number are its tokens, without a blank between them. -/
theorem tokenize_signedDecimal (v : Int) :
    ∃ ts e, tokenize (String.ofList (Text.signedDecimal v)) = ts ++ [e] ∧
      ts.map Token.spelling = (signedLexemes v).map Lexeme.spelling ∧ e.spelling = (.eof, "") := by
  let empty : Gap := ⟨[], by simp⟩
  let layout : Layout := ⟨empty, (signedLexemes v).map (·, empty)⟩
  have hlexemes : layout.lexemes = signedLexemes v := by
    simp [layout, Layout.lexemes, Function.comp_def]
  have htext : layout.text = (String.ofList (Text.signedDecimal v)).toList := by
    by_cases hneg : v < 0 <;>
      simp [layout, empty, Layout.text, signedLexemes, sign, Text.signedDecimal, hneg, Lexeme.minus,
        Lexeme.number]
  have hneeds : ¬ NeedsGap .minus (.number v.natAbs) := by
    rintro (⟨hword, -⟩ | ⟨hnumber, -⟩ | ⟨hsign, -⟩)
    · exact absurd hword (by decide)
    · exact absurd hnumber (by decide)
    · exact absurd hsign (by decide)
  have hfaithful : layout.Faithful := by
    rw [Layout.Faithful, Pieces.faithful_iff_isChain]
    by_cases hneg : v < 0
    · simp [layout, signedLexemes, sign, hneg, hneeds]
    · simp [layout, signedLexemes, sign, hneg]
  rw [← hlexemes]
  exact tokenize_of_faithful htext hfaithful

end Lexing

/-- The statement denotes the number: an integer, or a minus sign before an integer where the number
is negative. -/
inductive Node.Denotes : Node → Int → Prop
  | nonneg {first t : Token} {v : Int} : 0 ≤ v → Denotes (.exprStmt first (some (.integer t v))) v
  | neg {first m t : Token} {v : Int} :
    v < 0 → Denotes (.exprStmt first (some (.prefixOp m "-" (some (.integer t (-v)))))) v

/-! ## Operands on their own -/

namespace Parser

open Recovery TokenSource

variable {σ : Type} [TokenSource σ] {s : σ} {e : Token}

/-- Statements that are all that a source delivers stand in front of a fresh parser. -/
theorem facesProgram_of_delivers {ss : List Statement}
    (hdelivers : Delivers s (Program.tokens ss ++ [e])) (he : e.kind = .eof)
    (hchained : Program.Chained ss e) : (ofSource s).FacesProgram ss := by
  have hfaces : (ofSource s).Faces (Program.tokens ss ++ [e]) := by
    rw [faces_iff_ahead]
    intro i hi
    rw [ahead_ofSource, hdelivers.nth_eq hi]
  have hend := hfaces.ahead_length
  constructor
  · exact hend ▸ hchained
  · exact ((faces_append _ _ _).mp hfaces).1
  · exact hend ▸ he

/-- A source of nothing but an operand is a program of one statement. -/
theorem parse_operand {o : Operand} (hdelivers : Delivers s (o.tokens ++ [e])) (he : e.kind = .eof)
    (hwf : o.WellFormed) (hbare : o.bare = false) :
    ∃ p, parse s = (.ok (.program [.exprStmt o.head o.tree]), p) ∧
      p.diagnostics = o.atom.diagnostics := by
  let whole : Statement := .full .plain ⟨o, []⟩ none
  have hrule : o.head.kind.operandRule? ≠ none := by
    rw [Ne, Operand.operandRule?_head hwf, hbare]
    exact Bool.false_ne_true
  obtain ⟨hlet, hreturn, heof, -, -⟩ := TokenKind.of_operandRule? hrule
  have hstatement : whole.WellFormed :=
    ⟨trivial, ⟨hwf, fun _ => rfl, by simp⟩, fun _ => ⟨hlet, hreturn⟩, by simp⟩
  have hends : whole.EndsBefore e := by
    intro _
    rw [Run.EndsBefore, TokenKind.extends_lowest, he]
    exact ⟨by decide, Or.inr (by decide)⟩
  have htokens : Program.tokens [whole] = o.tokens := by
    simp [whole, Program.tokens, Statement.tokens, Lead.tokens, Run.tokens]
  have hprogram : (ofSource s).FacesProgram [whole] :=
    facesProgram_of_delivers (htokens ▸ hdelivers) he ⟨hstatement, heof, hends, trivial⟩
  obtain ⟨p, hparse, -, -, hdiagnostics⟩ := parse_passes hprogram
  refine ⟨p, ?_, ?_⟩
  · rw [hparse, Program.trees_cons]
    simp [whole, Statement.tree, Lead.tree, Run.tree, Run.head, Program.trees]
  · rw [hdiagnostics]
    simp [whole, Program.diagnostics, Statement.diagnostics, Run.diagnostics]

/-! ## Numbers as programs -/

/-- The digits of a number as an atom. -/
def numberAtom (n : Nat) (t : Token) : Atom :=
  if n < 2 ^ 63 then .leaf (.integer t n) else .badInteger t

theorem token_numberAtom (n : Nat) (t : Token) : (numberAtom n t).token = t := by
  rw [numberAtom]
  split <;> rfl

theorem wellFormed_numberAtom {n : Nat} {t : Token} (hn : n ≤ 2 ^ 63)
    (ht : t.spelling = (Lexing.Lexeme.number n).spelling) : (numberAtom n t).WellFormed := by
  obtain ⟨hkind, hliteral⟩ := Prod.mk.inj ht
  have hread := Text.readInt64_decimal hn
  have hliteral : t.literal = String.ofList (Text.decimal n) := hliteral
  rw [← hliteral] at hread
  by_cases hlt : n < 2 ^ 63
  · rw [if_pos hlt] at hread
    rw [numberAtom, if_pos hlt]
    exact ⟨hkind, hread⟩
  · rw [if_neg hlt] at hread
    rw [numberAtom, if_neg hlt]
    exact ⟨hkind, hread⟩

theorem bare_number (operators : List Token) (n : Nat) (t : Token) :
    Operand.bare ⟨operators, numberAtom n t⟩ = false := by
  rw [← Bool.not_eq_true, Operand.bare_iff]
  rintro ⟨u, hu⟩
  have hmissing := (Operand.mk.inj hu).2
  rw [numberAtom] at hmissing
  split at hmissing <;> cases hmissing

theorem isUnary_of_sign {operators : List Token} {v : Int}
    (h : operators.map Token.spelling = (Lexing.sign v).map Lexing.Lexeme.spelling) :
    ∀ u ∈ operators, u.kind.isUnary := by
  by_cases hneg : v < 0
  · rw [Lexing.sign, if_pos hneg] at h
    obtain ⟨m, rfl, hm⟩ := List.map_eq_singleton_iff.mp h
    have hkind : m.kind = .minus := congrArg Prod.fst hm
    simp [hkind, TokenKind.isUnary]
  · rw [Lexing.sign, if_neg hneg] at h
    obtain rfl := List.map_eq_nil_iff.mp h
    simp

/-- The numeral of a number is one statement, whatever becomes of its digits. -/
theorem parse_number {v : Int} (hv : v.natAbs ≤ 2 ^ 63) :
    ∃ operators t p, operators.map Token.spelling = (Lexing.sign v).map Lexing.Lexeme.spelling ∧
      parse (Lexer.ofString (String.ofList (Text.signedDecimal v))) =
        (.ok (.program [.exprStmt (operators.headD t)
          (wrap operators (numberAtom v.natAbs t).tree)]), p) ∧
      t.literal = String.ofList (Text.decimal v.natAbs) ∧
      p.diagnostics = (numberAtom v.natAbs t).diagnostics := by
  obtain ⟨ts, e, htokens, hspelling, hend⟩ := Lexing.tokenize_signedDecimal v
  rw [Lexing.signedLexemes, List.map_append] at hspelling
  obtain ⟨operators, rest, rfl, hoperators, hrest⟩ := List.map_eq_append_iff.mp hspelling
  obtain ⟨t, rfl, ht⟩ := List.map_eq_singleton_iff.mp hrest
  let o : Operand := ⟨operators, numberAtom v.natAbs t⟩
  have hwf : o.WellFormed := ⟨isUnary_of_sign hoperators, wellFormed_numberAtom hv ht⟩
  have hsource :
      (Lexer.ofString (String.ofList (Text.signedDecimal v))).tokens = o.tokens ++ [e] := by
    rw [Operand.tokens, token_numberAtom]
    exact htokens
  have hdelivers := (Lexer.ofString (String.ofList (Text.signedDecimal v))).delivers
  rw [hsource] at hdelivers
  obtain ⟨p, hparse, hdiagnostics⟩ :=
    parse_operand hdelivers (congrArg Prod.fst hend) hwf (bare_number ..)
  rw [Operand.head, token_numberAtom] at hparse
  exact ⟨operators, t, p, hoperators, hparse, congrArg Prod.snd ht, hdiagnostics⟩

/-- Any number that is closer to zero than the least integer is found in its numeral. -/
theorem parse_of_natAbs_lt {v : Int} (hv : v.natAbs < 2 ^ 63) :
    ∃ n p, parse (Lexer.ofString (String.ofList (Text.signedDecimal v))) = (.ok (.program [n]), p) ∧
      p.diagnostics = [] ∧ n.Denotes v := by
  obtain ⟨operators, t, p, hoperators, hparse, -, hdiagnostics⟩ := parse_number (Nat.le_of_lt hv)
  have hatom : numberAtom v.natAbs t = .leaf (.integer t v.natAbs) := if_pos hv
  rw [hatom] at hparse hdiagnostics
  refine ⟨_, p, hparse, hdiagnostics, ?_⟩
  by_cases hneg : v < 0
  · rw [Lexing.sign, if_pos hneg] at hoperators
    obtain ⟨m, rfl, hm⟩ := List.map_eq_singleton_iff.mp hoperators
    have hliteral : m.literal = "-" := congrArg Prod.snd hm
    have hvalue : (v.natAbs : Int) = -v := by omega
    change Node.Denotes (.exprStmt m (some (.prefixOp m m.literal (some (.integer t v.natAbs))))) v
    rw [hliteral, hvalue]
    exact .neg hneg
  · rw [Lexing.sign, if_neg hneg] at hoperators
    obtain rfl := List.map_eq_nil_iff.mp hoperators
    have hvalue : (v.natAbs : Int) = v := by omega
    rw [hvalue]
    exact .nonneg (by omega)

/-- The digits of the least integer are out of range, and the sign is left without an operand. -/
theorem parse_least :
    ∃ m p, parse (Lexer.ofString (String.ofList (Text.signedDecimal (-2 ^ 63)))) =
        (.ok (.program [.exprStmt m (some (.prefixOp m "-" none))]), p) ∧
      p.diagnostics = [.badInteger "9223372036854775808"] := by
  obtain ⟨operators, t, p, hoperators, hparse, hliteral, hdiagnostics⟩ :=
    parse_number (v := -2 ^ 63) (by decide)
  obtain ⟨m, rfl, hm⟩ := List.map_eq_singleton_iff.mp hoperators
  have hatom : numberAtom (-2 ^ 63 : Int).natAbs t = .badInteger t := if_neg (by decide)
  rw [hatom] at hparse hdiagnostics
  have hsign : m.literal = "-" := congrArg Prod.snd hm
  have hdigits : String.ofList (Text.decimal (-2 ^ 63 : Int).natAbs) = "9223372036854775808" := by
    decide +kernel
  refine ⟨m, p, ?_, ?_⟩
  · rw [hparse, ← hsign]
    rfl
  · rw [hdiagnostics, ← hdigits, ← hliteral]
    rfl

/-- Every 64-bit integer but the least one can be written as its numeral: the source is one
statement that denotes it, without a diagnostic. The digits of the least one are out of range before
the sign is regarded, so that its statement lacks the operand and the digits are reported. -/
theorem parse_signedDecimal {v : Int} (hmin : -2 ^ 63 ≤ v) (hmax : v ≤ 2 ^ 63 - 1) :
    ∃ n p, parse (Lexer.ofString (String.ofList (Text.signedDecimal v))) = (.ok (.program [n]), p) ∧
      (v ≠ -2 ^ 63 → p.diagnostics = [] ∧ n.Denotes v) ∧
      (v = -2 ^ 63 → p.diagnostics = [.badInteger "9223372036854775808"] ∧
        ∃ m, n = .exprStmt m (some (.prefixOp m "-" none))) := by
  by_cases hleast : v = -2 ^ 63
  · subst hleast
    obtain ⟨m, p, hparse, hdiagnostics⟩ := parse_least
    exact ⟨_, p, hparse, fun hne => absurd rfl hne, fun _ => ⟨hdiagnostics, m, rfl⟩⟩
  · obtain ⟨n, p, hparse, hfound⟩ := parse_of_natAbs_lt (v := v) (by omega)
    exact ⟨n, p, hparse, fun _ => hfound, fun heq => absurd heq hleast⟩

/-- The integer behind the least one has a sign and digits that are in range. -/
theorem parse_signedDecimal_nextToLeast :
    (-2 ^ 63 : Int) ≤ -9223372036854775807 ∧ (-9223372036854775807 : Int) ≤ 2 ^ 63 - 1 ∧
      ∃ n p, parse (Lexer.ofString "-9223372036854775807") = (.ok (.program [n]), p) ∧
        p.diagnostics = [] ∧ n.Denotes (-9223372036854775807) := by
  have hmin : (-2 ^ 63 : Int) ≤ -9223372036854775807 := by decide
  have hmax : (-9223372036854775807 : Int) ≤ 2 ^ 63 - 1 := by decide
  have hsource : String.ofList (Text.signedDecimal (-9223372036854775807)) =
      "-9223372036854775807" := by
    decide +kernel
  obtain ⟨n, p, hparse, hfound, -⟩ := parse_signedDecimal hmin hmax
  rw [hsource] at hparse
  exact ⟨hmin, hmax, n, p, hparse, hfound (by decide)⟩

/-- Not every 64-bit integer is found in its numeral: the least one is not. -/
theorem not_parse_signedDecimal :
    ¬ ∀ v : Int, -2 ^ 63 ≤ v → v ≤ 2 ^ 63 - 1 → ∃ n p,
      parse (Lexer.ofString (String.ofList (Text.signedDecimal v))) = (.ok (.program [n]), p) ∧
        p.diagnostics = [] ∧ n.Denotes v := by
  intro hall
  obtain ⟨n, p, hparse, hclean, -⟩ := hall (-2 ^ 63) (by decide) (by decide)
  obtain ⟨m, q, hleast, hdiagnostics⟩ := parse_least
  obtain ⟨-, rfl⟩ := Prod.mk.inj (hparse.symm.trans hleast)
  rw [hclean] at hdiagnostics
  cases hdiagnostics

end Parser

end MonkeySyntax
