import MonkeySyntax.Ast.Printer
import MonkeySyntax.Grammar.Program
import MonkeySyntax.Proofs.Lexing.Symbols

/-!
# Written trees

The text of a tree spells the tokens of the run that the tree was built from, with parentheses
between them. No two pieces of it run together: a blank or a parenthesis stands between them, save
between a unary operator and its operand, and an operand never starts with an equality sign. Let and
return statements are written with a semicolon, whether they had one or not.
-/

namespace MonkeySyntax

open Lexing

/-- Where nothing can go on with it, the text of the tree spells the tokens. -/
structure Node.Writes (n : Node) (ts : List Token) : Prop where
  head : n.text.toList.head? ≠ some '='
  spelled : ∀ next, Closes next →
    symbols (n.text.toList ++ next) = ts.map Token.spelling ++ symbols next

namespace TokenKind

theorem isParen_of_isUnary {k : TokenKind} (h : k.isUnary) : k.isParen = false := by
  cases k <;> first | rfl | cases h

theorem isParen_of_isInfix {k : TokenKind} (h : k.isInfix) : k.isParen = false := by
  cases k <;> first | rfl | cases h

end TokenKind

namespace Lexing

/-- A unary operator is a single character. -/
theorem exists_of_isUnary {t : Token} (hunary : t.kind.isUnary) (h : t.Lexical) :
    ∃ c, t.literal.toList = [c] ∧ isWordChar c = false := by
  have hlisted := h.ofOperator? (by intro hk; cases hkind : t.kind <;> simp_all [TokenKind.isUnary])
  rcases operator_cases hlisted with ⟨c, hc, -, hchar⟩ | ⟨-, hkind⟩ | ⟨-, hkind⟩
  · exact ⟨c, hc, hchar⟩
  · rw [hkind] at hunary
    cases hunary
  · rw [hkind] at hunary
    cases hunary

end Lexing

namespace Node

/-! ## Expressions -/

theorem writes_leaf {l : Grammar.Leaf} (h : l.WellFormed) (hlexical : l.token.Lexical) :
    Writes l.tree [l.token] := by
  have htext : l.tree.text = l.token.literal := by cases l <;> rfl
  have hkind : l.token.kind = .ident ∨ l.token.kind = .int := by
    cases l with
    | identifier t => exact Or.inl h
    | integer t v => exact Or.inr h.1
  have hparen : l.token.kind.isParen = false := by
    rcases hkind with hident | hint
    · rw [hident]; rfl
    · rw [hint]; rfl
  constructor
  · rw [htext]
    exact hlexical.head?_ne_eq hkind
  · intro next hnext
    rw [htext, symbols_token_of_closes hlexical hparen hnext]
    rfl

variable {t : Token} {n l r : Node} {ts ls rs : List Token}

theorem Writes.prefixOp (hunary : t.kind.isUnary) (hlexical : t.Lexical) (h : Writes n ts) :
    Writes (.prefixOp t t.literal (some n)) (t :: ts) := by
  have htext : (Node.prefixOp t t.literal (some n)).text.toList =
      '(' :: (t.literal.toList ++ (n.text.toList ++ [')'])) := by
    simp [text_prefixOp]
  obtain ⟨c, hc, hchar⟩ := exists_of_isUnary hunary hlexical
  constructor
  · rw [htext]
    simp
  · intro next _
    have hhead : (n.text.toList ++ ')' :: next).head? ≠ some '=' := by
      have hn := h.head
      cases hchars : n.text.toList with
      | nil => simp
      | cons d ds => simpa [hchars] using hn
    -- Operator and operand touch here, so the operand must not start with an equality sign.
    have hends : (t.lexeme hlexical).EndsBefore (n.text.toList ++ ')' :: next) := by
      have hfirst : (t.lexeme hlexical).text.head? = some c := by
        rw [Token.text_lexeme, hc]
        rfl
      exact Lexeme.endsBefore_of_symbol hfirst hchar fun _ => hhead
    have hclose : Closes (')' :: next) := closes_cons (by decide)
    calc symbols ((Node.prefixOp t t.literal (some n)).text.toList ++ next)
        = symbols ('(' :: (t.literal.toList ++ (n.text.toList ++ ')' :: next))) := by
          rw [htext]; simp
      _ = symbols (t.literal.toList ++ (n.text.toList ++ ')' :: next)) := symbols_paren (Or.inl rfl)
      _ = t.spelling :: symbols (n.text.toList ++ ')' :: next) :=
          symbols_token hlexical (TokenKind.isParen_of_isUnary hunary) hends
      _ = t.spelling :: (ts.map Token.spelling ++ symbols (')' :: next)) := by
          rw [h.spelled _ hclose]
      _ = (t :: ts).map Token.spelling ++ symbols next := by
          rw [symbols_paren (Or.inr rfl)]
          rfl

theorem Writes.infixOp (hoperation : t.kind.isInfix) (hlexical : t.Lexical) (hl : Writes l ls)
    (hr : Writes r rs) : Writes (.infixOp t t.literal (some l) (some r)) (ls ++ t :: rs) := by
  have htext : (Node.infixOp t t.literal (some l) (some r)).text.toList =
      '(' :: (l.text.toList ++ ' ' :: (t.literal.toList ++ ' ' :: (r.text.toList ++ [')']))) := by
    simp [text]
  constructor
  · rw [htext]
    simp
  · intro next _
    have hblank : Closes (' ' :: (t.literal.toList ++ ' ' :: (r.text.toList ++ ')' :: next))) :=
      closes_cons (by decide)
    have hclose : Closes (')' :: next) := closes_cons (by decide)
    calc symbols ((Node.infixOp t t.literal (some l) (some r)).text.toList ++ next)
        = symbols ('(' :: (l.text.toList ++ ' ' :: (t.literal.toList ++ ' ' ::
            (r.text.toList ++ ')' :: next)))) := by
          rw [htext]; simp
      _ = ls.map Token.spelling ++ symbols (t.literal.toList ++ ' ' ::
            (r.text.toList ++ ')' :: next)) := by
          rw [symbols_paren (Or.inl rfl), hl.spelled _ hblank, symbols_blank rfl]
      _ = ls.map Token.spelling ++ t.spelling :: symbols (r.text.toList ++ ')' :: next) := by
          rw [symbols_token_blank hlexical (TokenKind.isParen_of_isInfix hoperation)]
      _ = (ls ++ t :: rs).map Token.spelling ++ symbols next := by
          rw [hr.spelled _ hclose, symbols_paren (Or.inr rfl)]
          simp

theorem writes_operand {o : Grammar.Operand} (h : o.WellFormed)
    (hlexical : ∀ t ∈ o.tokens, t.Lexical) : Writes o.tree o.tokens := by
  obtain ⟨operators, leaf⟩ := o
  have hleaf : leaf.WellFormed := h.2
  replace h : ∀ t ∈ operators, t.kind.isUnary := h.1
  induction operators with
  | nil => exact writes_leaf hleaf (hlexical _ (by simp [Grammar.Operand.tokens]))
  | cons t ts ih =>
    obtain ⟨hunary, hrest⟩ := List.forall_mem_cons.mp h
    obtain ⟨ht, hbehind⟩ := List.forall_mem_cons.mp hlexical
    exact .prefixOp hunary ht (ih hbehind hrest)

theorem writes_run {w : Grammar.Run} (h : w.WellFormed) (hlexical : ∀ t ∈ w.tokens, t.Lexical) :
    Writes w.tree w.tokens := by
  induction w using Grammar.Run.split_induct with
  | single o =>
    have htokens : Grammar.Run.tokens ⟨o, []⟩ = o.tokens := List.append_nil _
    rw [htokens] at hlexical ⊢
    rw [Grammar.Run.tree_single]
    exact writes_operand h.1 hlexical
  | split o before operator operand behind hb ha ihbefore ihbehind =>
    have htokens : Grammar.Run.tokens ⟨o, before ++ (operator, operand) :: behind⟩ =
        Grammar.Run.tokens ⟨o, before⟩ ++ operator :: Grammar.Run.tokens ⟨operand, behind⟩ := by
      simp [Grammar.Run.tokens]
    rw [htokens] at hlexical ⊢
    obtain ⟨hfront, hback⟩ := List.forall_mem_append.mp hlexical
    obtain ⟨hoperator, hrest⟩ := List.forall_mem_cons.mp hback
    obtain ⟨hfirst, hlinks⟩ := h
    obtain ⟨hbefore, hbehind⟩ := List.forall_mem_append.mp hlinks
    obtain ⟨⟨hoperation, hoperand⟩, hbehind⟩ := List.forall_mem_cons.mp hbehind
    rw [Grammar.Run.tree_split hb ha]
    exact .infixOp hoperation hoperator (ihbefore ⟨hfirst, hbefore⟩ hfront)
      (ihbehind ⟨hoperand, hbehind⟩ hrest)

end Node

/-! ## Statements -/

namespace Grammar

/-- The clause is written with a semicolon at its end. -/
def Clause.isClosed : Clause → Bool
  | expression _ => false
  | _ => true

/-- The statement that is written for a clause. -/
def Clause.written (c : Clause) : Statement :=
  ⟨c, if c.isClosed then some ⟨.semicolon, ";", 0, 0⟩ else none⟩

variable {c : Clause} {next : List Char}

/-- A value is written with the semicolon behind it. -/
theorem symbols_value {value : Run} (h : value.WellFormed)
    (hlexical : ∀ t ∈ value.tokens, t.Lexical) :
    symbols (value.tree.text.toList ++ ';' :: next) =
      value.tokens.map Token.spelling ++ (.semicolon, ";") :: symbols next := by
  have hclose : Closes (';' :: next) := closes_cons (by decide)
  rw [(Node.writes_run h hlexical).spelled _ hclose, symbols_semicolon]

/-- The text of a statement spells its tokens, up to the semicolon at its end. -/
theorem Clause.symbols_text (h : c.WellFormed) (hlexical : ∀ t ∈ c.tokens, t.Lexical)
    (hnext : c.isClosed ∨ Closes next) :
    symbols (c.tree.text.toList ++ next) =
      c.written.tokens.map Token.spelling ++ symbols next := by
  cases c with
  | letClause word name sign value =>
    obtain ⟨hword, hname, hsign, hvalue⟩ := h
    simp only [tokens, List.forall_mem_cons] at hlexical
    obtain ⟨hwordLex, hnameLex, hsignLex, hvalueLex⟩ := hlexical
    have hequal := literal_of_assign hsignLex hsign
    calc symbols ((tree (.letClause word name sign value)).text.toList ++ next)
        = symbols (word.literal.toList ++ ' ' :: (name.literal.toList ++ ' ' ::
            (sign.literal.toList ++ ' ' :: (value.tree.text.toList ++ ';' :: next)))) := by
          simp [tree, Node.text, hequal]
      _ = word.spelling :: name.spelling :: sign.spelling ::
            symbols (value.tree.text.toList ++ ';' :: next) := by
          rw [symbols_token_blank hwordLex (by rw [hword]; rfl),
            symbols_token_blank hnameLex (by rw [hname]; rfl),
            symbols_token_blank hsignLex (by rw [hsign]; rfl)]
      _ = (written (.letClause word name sign value)).tokens.map Token.spelling ++
            symbols next := by
          rw [symbols_value hvalue hvalueLex]
          simp [written, isClosed, Statement.tokens, tokens, Token.spelling]
  | returnClause word value =>
    obtain ⟨hword, hvalue⟩ := h
    simp only [tokens, List.forall_mem_cons] at hlexical
    obtain ⟨hwordLex, hvalueLex⟩ := hlexical
    calc symbols ((tree (.returnClause word value)).text.toList ++ next)
        = symbols (word.literal.toList ++ ' ' :: (value.tree.text.toList ++ ';' :: next)) := by
          simp [tree, Node.text]
      _ = word.spelling :: symbols (value.tree.text.toList ++ ';' :: next) :=
          symbols_token_blank hwordLex (by rw [hword]; rfl)
      _ = (written (.returnClause word value)).tokens.map Token.spelling ++ symbols next := by
          rw [symbols_value hvalue hvalueLex]
          simp [written, isClosed, Statement.tokens, tokens, Token.spelling]
  | expression value =>
    have hclose : Closes next := hnext.resolve_left (by simp [isClosed])
    have hspelled := (Node.writes_run h hlexical).spelled next hclose
    simpa [written, isClosed, Statement.tokens, tokens, tree, Node.text] using hspelled

/-- The text of a program spells the tokens of its statements, where only the last of them may be
written without a semicolon. -/
theorem symbols_textAll {cs : List Clause} (h : ∀ c ∈ cs, c.WellFormed)
    (hlexical : ∀ c ∈ cs, ∀ t ∈ c.tokens, t.Lexical) (hclosed : ∀ c ∈ cs.dropLast, c.isClosed) :
    symbols (Node.textAll (cs.map Clause.tree)).toList =
      ((cs.map Clause.written).flatMap Statement.tokens).map Token.spelling ++ [(.eof, "")] := by
  induction cs with
  | nil => exact symbols_nil
  | cons c cs ih =>
    obtain ⟨hc, hcs⟩ := List.forall_mem_cons.mp h
    obtain ⟨hcLex, hcsLex⟩ := List.forall_mem_cons.mp hlexical
    rw [List.map_cons, Node.textAll, String.toList_append, List.map_cons, List.flatMap_cons,
      List.map_append, List.append_assoc]
    -- Only what ends the whole text may be written without a semicolon.
    cases cs with
    | nil =>
      have hspelled := c.symbols_text hc hcLex (Or.inr closes_nil)
      rw [symbols_nil] at hspelled
      simpa [Node.textAll] using hspelled
    | cons d ds =>
      rw [List.dropLast_cons_cons] at hclosed
      obtain ⟨hcClosed, hrest⟩ := List.forall_mem_cons.mp hclosed
      rw [c.symbols_text hc hcLex (Or.inl hcClosed), ih hcs hcsLex hrest]

end Grammar

end MonkeySyntax
