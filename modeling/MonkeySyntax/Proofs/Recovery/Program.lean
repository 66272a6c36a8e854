import MonkeySyntax.Proofs.Recovery.Run

/-!
# Programs that may be malformed

What the parser reads as statements out of any tokens. A let statement is given up where its name or
its assignment sign is missing; every other statement keeps its place, whatever its expression may
lack. Statements stand one behind the other, and each ends because of the token behind it.
-/

namespace MonkeySyntax

/-- The statements of a program; no other tree has any. -/
def Node.statements : Node → List Node
  | program ss => ss
  | _ => []

@[simp] theorem Node.statements_program (ss : List Node) : (program ss).statements = ss := rfl

namespace Recovery

/-- The tokens of a statement in front of its expression. -/
inductive Lead where
  | letLead (word name sign : Token)
  | returnLead (word : Token)
  | plain
deriving DecidableEq, Repr

namespace Lead

def tokens : Lead → List Token
  | letLead word name sign => [word, name, sign]
  | returnLead word => [word]
  | plain => []

def WellFormed : Lead → Prop
  | letLead word name sign => word.kind = .letKw ∧ name.kind = .ident ∧ sign.kind = .assign
  | returnLead word => word.kind = .returnKw
  | plain => True

instance (l : Lead) : Decidable l.WellFormed :=
  match l with
  | letLead word name sign =>
    inferInstanceAs (Decidable (word.kind = .letKw ∧ name.kind = .ident ∧ sign.kind = .assign))
  | returnLead word => inferInstanceAs (Decidable (word.kind = .returnKw))
  | plain => inferInstanceAs (Decidable True)

/-- The statement with the given value; a bare expression keeps the token that it starts with. -/
def tree (l : Lead) (first : Token) (value : Option Node) : Node :=
  match l with
  | letLead word name _ => .letStmt word (.identifier name name.literal) value
  | returnLead word => .returnStmt word value
  | plain => .exprStmt first value

end Lead

inductive Statement where
  /-- A let without the name that is due next. -/
  | nameless (word : Token) (got : TokenKind)
  /-- A let without the assignment sign that is due next. -/
  | signless (word name : Token) (got : TokenKind)
  | full (lead : Lead) (value : Run) (semicolon : Option Token)
deriving DecidableEq, Repr

namespace Statement

def tokens : Statement → List Token
  | nameless word _ => [word]
  | signless word name _ => [word, name]
  | full lead value semicolon => lead.tokens ++ (value.tokens ++ semicolon.toList)

/-- The token that the statement starts with. -/
def head : Statement → Token
  | nameless word _ | signless word _ _ => word
  | full lead value _ => lead.tokens.headD value.head

/-- A statement that is given up leaves no tree. -/
def tree : Statement → Option Node
  | nameless .. | signless .. => none
  | full lead value _ => some (lead.tree value.head value.tree)

def diagnostics : Statement → List Diagnostic
  | nameless _ got => [.expectedNext .ident got]
  | signless _ _ got => [.expectedNext .assign got]
  | full _ value _ => value.diagnostics

def moves : Statement → List Parser.Move
  | nameless _ got => [.diagnose (.expectedNext .ident got)]
  | signless _ _ got => [.advance, .diagnose (.expectedNext .assign got)]
  | full lead value semicolon =>
    List.replicate lead.tokens.length .advance ++
      (value.moves ++ List.replicate semicolon.toList.length .advance)

def WellFormed : Statement → Prop
  | nameless word got => word.kind = .letKw ∧ got ≠ .ident
  | signless word name got => word.kind = .letKw ∧ name.kind = .ident ∧ got ≠ .assign
  | full lead value semicolon =>
    lead.WellFormed ∧ value.WellFormed ∧
      (lead = .plain → value.head.kind ≠ .letKw ∧ value.head.kind ≠ .returnKw) ∧
      ∀ t ∈ semicolon, t.kind = .semicolon

instance (s : Statement) : Decidable s.WellFormed :=
  match s with
  | nameless word got => inferInstanceAs (Decidable (word.kind = .letKw ∧ got ≠ .ident))
  | signless word name got =>
    inferInstanceAs (Decidable (word.kind = .letKw ∧ name.kind = .ident ∧ got ≠ .assign))
  | full lead value semicolon =>
    inferInstanceAs (Decidable (lead.WellFormed ∧ value.WellFormed ∧
      (lead = .plain → value.head.kind ≠ .letKw ∧ value.head.kind ≠ .returnKw) ∧
      ∀ t ∈ semicolon, t.kind = .semicolon))

/-- The token behind the statement does not belong to it. -/
def EndsBefore (next : Token) : Statement → Prop
  | nameless _ got | signless _ _ got => next.kind = got
  | full _ value semicolon =>
    semicolon = none → next.kind ≠ .semicolon ∧ value.EndsBefore Precedence.lowest.rank next

instance (next : Token) (s : Statement) : Decidable (s.EndsBefore next) :=
  match s with
  | nameless _ got | signless _ _ got => inferInstanceAs (Decidable (next.kind = got))
  | full _ value semicolon =>
    inferInstanceAs (Decidable (semicolon = none →
      next.kind ≠ .semicolon ∧ value.EndsBefore Precedence.lowest.rank next))

theorem head?_tokens (s : Statement) : s.tokens.head? = some s.head := by
  cases s with
  | nameless | signless => rfl
  | full lead value semicolon =>
    cases lead with
    | letLead | returnLead => rfl
    | plain =>
      rw [tokens, Lead.tokens, List.nil_append, List.head?_append, Run.head?_tokens]
      rfl

theorem advances_moves (s : Statement) :
    Parser.Move.advances s.moves + 1 = s.tokens.length := by
  cases s with
  | nameless | signless => simp [moves, tokens]
  | full lead value semicolon =>
    have hvalue := value.advances_moves
    simp only [moves, tokens, Parser.Move.advances_append, Parser.Move.advances_replicate,
      List.length_append]
    omega

@[simp] theorem diagnostics_moves (s : Statement) :
    Parser.Move.diagnostics s.moves = s.diagnostics := by
  cases s with
  | nameless | signless => rfl
  | full lead value semicolon => simp [moves, diagnostics]

end Statement

/-! ## Sequences of statements -/

namespace Program

def tokens (ss : List Statement) : List Token := ss.flatMap Statement.tokens

def trees (ss : List Statement) : List Node := ss.filterMap Statement.tree

def diagnostics (ss : List Statement) : List Diagnostic := ss.flatMap Statement.diagnostics

/-- Behind every statement the parser moves on. -/
def moves (ss : List Statement) : List Parser.Move :=
  ss.flatMap fun s => s.moves ++ [.advance]

/-- The token that the statements start with, or the one behind them where there are none. -/
def head (ss : List Statement) (next : Token) : Token := (ss.head?.map Statement.head).getD next

/-- Every statement ends before the next one, and the last one before the given token. -/
def Chained : List Statement → Token → Prop
  | [], _ => True
  | s :: ss, next =>
    s.WellFormed ∧ s.head.kind ≠ .eof ∧ s.EndsBefore (head ss next) ∧ Chained ss next

instance decidableChained : (ss : List Statement) → (next : Token) → Decidable (Chained ss next)
  | [], _ => inferInstanceAs (Decidable True)
  | s :: ss, next =>
    have := decidableChained ss next
    inferInstanceAs (Decidable
      (s.WellFormed ∧ s.head.kind ≠ .eof ∧ s.EndsBefore (head ss next) ∧ Chained ss next))

variable {s : Statement} {ss rs : List Statement} {next : Token}

@[simp] theorem tokens_nil : tokens [] = [] := rfl

@[simp] theorem tokens_cons : tokens (s :: ss) = s.tokens ++ tokens ss := rfl

theorem tokens_eq_nil_iff : tokens ss = [] ↔ ss = [] := by
  cases ss with
  | nil => exact ⟨fun _ => rfl, fun _ => rfl⟩
  | cons s ss =>
    have hne : s.tokens ≠ [] := by
      intro hnil
      have hhead := s.head?_tokens
      rw [hnil] at hhead
      cases hhead
    simp [hne]

@[simp] theorem tokens_append : tokens (ss ++ rs) = tokens ss ++ tokens rs := List.flatMap_append

@[simp] theorem trees_append : trees (ss ++ rs) = trees ss ++ trees rs := List.filterMap_append

theorem trees_cons : trees (s :: ss) = s.tree.toList ++ trees ss := by
  cases h : s.tree <;> simp [trees, h]

/-- The last statement has at most one tree. -/
theorem dropLast_trees_prefix : (trees (ss ++ [s])).dropLast <+: trees ss := by
  rw [trees_append, trees_cons]
  cases s.tree with
  | none => simpa [trees] using List.dropLast_prefix (trees ss)
  | some n => simp [trees]

@[simp] theorem diagnostics_cons : diagnostics (s :: ss) = s.diagnostics ++ diagnostics ss := rfl

@[simp] theorem diagnostics_append : diagnostics (ss ++ rs) = diagnostics ss ++ diagnostics rs :=
  List.flatMap_append

@[simp] theorem head_cons : head (s :: ss) next = s.head := rfl

theorem head_append : head (ss ++ rs) next = head ss (head rs next) := by
  cases ss <;> rfl

theorem head_eq_headD : head ss next = (tokens ss).headD next := by
  cases ss with
  | nil => rfl
  | cons s ss =>
    rw [head_cons, tokens_cons, List.headD_eq_head?_getD, List.head?_append, s.head?_tokens]
    rfl

@[simp] theorem moves_cons : moves (s :: ss) = s.moves ++ .advance :: moves ss := by
  simp [moves]

theorem advances_moves (ss : List Statement) :
    Parser.Move.advances (moves ss) = (tokens ss).length := by
  induction ss with
  | nil => rfl
  | cons s ss ih =>
    have hs := s.advances_moves
    simp only [moves_cons, Parser.Move.advances_append, Parser.Move.advances_advance, ih,
      tokens_cons, List.length_append]
    omega

theorem diagnostics_moves (ss : List Statement) :
    Parser.Move.diagnostics (moves ss) = diagnostics ss := by
  induction ss with
  | nil => rfl
  | cons s ss ih => simp [ih]

theorem wellFormed_of_chained (h : Chained ss next) : ∀ s ∈ ss, s.WellFormed := by
  induction ss with
  | nil => simp
  | cons s ss ih => exact List.forall_mem_cons.mpr ⟨h.1, ih h.2.2.2⟩

theorem chained_append :
    Chained (ss ++ rs) next ↔ Chained ss (head rs next) ∧ Chained rs next := by
  induction ss with
  | nil => simp [Chained]
  | cons s ss ih => simp only [List.cons_append, Chained, ih, head_append, and_assoc]

end Program

end Recovery

end MonkeySyntax
