import Mathlib.Data.List.TakeWhile
import MonkeySyntax.Grammar.Run
import MonkeySyntax.Parser.Expression
import MonkeySyntax.Proofs.Parser.Moves

/-!
# Runs that may be malformed

What the parser reads as an expression out of any tokens. An operand may be a bad integer, or a
token that starts no operand may stand in its place; such a token is passed over all the same. An
operand that is nothing but such a token is bare: nothing is attached to it, and the operators
behind it go to the enclosing expression. The tree of a run is given without a parser.
-/

namespace MonkeySyntax

/-- A token of the kind goes on with an expression in which operators bind tighter than the rank. -/
def TokenKind.Extends (rank : Int) (k : TokenKind) : Prop := k.isInfix ∧ rank < k.rank

instance (rank : Int) (k : TokenKind) : Decidable (k.Extends rank) :=
  inferInstanceAs (Decidable (k.isInfix ∧ rank < k.rank))

theorem TokenKind.Extends.of_le {r s : Int} {k : TokenKind} (h : k.Extends s) (hle : r ≤ s) :
    k.Extends r := ⟨h.1, Int.lt_of_le_of_lt hle h.2⟩

theorem TokenKind.extends_lowest {k : TokenKind} :
    k.Extends Precedence.lowest.rank ↔ k.isInfix := by
  simp [Extends, lowest_lt_rank_iff]

namespace Recovery

inductive Atom where
  | leaf (l : Grammar.Leaf)
  | badInteger (token : Token)
  /-- The token stands where an operand is due, and starts none. -/
  | missing (token : Token)
deriving DecidableEq, Repr

namespace Atom

def token : Atom → Token
  | leaf l => l.token
  | badInteger t | missing t => t

def tree : Atom → Option Node
  | leaf l => some l.tree
  | badInteger _ | missing _ => none

def diagnostics : Atom → List Diagnostic
  | leaf _ => []
  | badInteger t => [.badInteger t.literal]
  | missing t => [.noOperand t.kind]

def WellFormed : Atom → Prop
  | leaf l => l.WellFormed
  | badInteger t => t.kind = .int ∧ readInt64 t.literal = .ok none
  | missing t => t.kind.operandRule? = none

instance (a : Atom) : Decidable a.WellFormed :=
  match a with
  | leaf (.identifier t) => inferInstanceAs (Decidable (t.kind = .ident))
  | leaf (.integer t v) =>
    inferInstanceAs (Decidable (t.kind = .int ∧ readInt64 t.literal = .ok (some v)))
  | badInteger t => inferInstanceAs (Decidable (t.kind = .int ∧ readInt64 t.literal = .ok none))
  | missing t => inferInstanceAs (Decidable (t.kind.operandRule? = none))

theorem isUnary_token {a : Atom} (h : a.WellFormed) : a.token.kind.isUnary = false := by
  cases a with
  | leaf l =>
    cases l with
    | identifier t =>
      have hk : t.kind = .ident := h
      simp [token, Grammar.Leaf.token, hk, TokenKind.isUnary]
    | integer t v =>
      have hk : t.kind = .int := h.1
      simp [token, Grammar.Leaf.token, hk, TokenKind.isUnary]
  | badInteger t => simp [token, h.1, TokenKind.isUnary]
  | missing t =>
    have hk : t.kind.operandRule? = none := h
    cases hkind : t.kind <;> simp_all [token, TokenKind.isUnary, TokenKind.operandRule?]

end Atom

/-- An atom behind unary operators, the outermost first. -/
structure Operand where
  operators : List Token
  atom : Atom
deriving DecidableEq, Repr

namespace Operand

def tokens (o : Operand) : List Token := o.operators ++ [o.atom.token]

/-- The token that the operand starts with. -/
def head (o : Operand) : Token := o.operators.headD o.atom.token

def tree (o : Operand) : Option Node := Parser.wrap o.operators o.atom.tree

def moves (o : Operand) : List Parser.Move :=
  List.replicate o.operators.length .advance ++ o.atom.diagnostics.map .diagnose

/-- Nothing of an operand is there. -/
def bare (o : Operand) : Bool :=
  match o with
  | ⟨[], .missing _⟩ => true
  | _ => false

def WellFormed (o : Operand) : Prop :=
  (∀ t ∈ o.operators, t.kind.isUnary) ∧ o.atom.WellFormed

instance (o : Operand) : Decidable o.WellFormed :=
  inferInstanceAs (Decidable ((∀ t ∈ o.operators, t.kind.isUnary) ∧ o.atom.WellFormed))

theorem head?_tokens (o : Operand) : o.tokens.head? = some o.head := by
  obtain ⟨_ | ⟨t, ts⟩, a⟩ := o <;> rfl

theorem length_tokens (o : Operand) : o.tokens.length = o.operators.length + 1 := by
  simp [tokens]

@[simp] theorem advances_moves (o : Operand) :
    Parser.Move.advances o.moves = o.operators.length := by
  simp [moves]

@[simp] theorem diagnostics_moves (o : Operand) :
    Parser.Move.diagnostics o.moves = o.atom.diagnostics := by
  simp [moves]

theorem bare_iff {o : Operand} : o.bare ↔ ∃ t, o = ⟨[], .missing t⟩ := by
  obtain ⟨_ | ⟨t, ts⟩, _ | _ | _⟩ := o <;> simp [bare]

/-- The rules for operands apply exactly where the operand is not bare. -/
theorem operandRule?_head {o : Operand} (h : o.WellFormed) :
    o.head.kind.operandRule? = none ↔ o.bare := by
  obtain ⟨_ | ⟨t, ts⟩, a⟩ := o
  · cases a with
    | leaf l =>
      cases l with
      | identifier t =>
        have hk : t.kind = .ident := h.2
        simp [head, Atom.token, Grammar.Leaf.token, bare, hk, TokenKind.operandRule?]
      | integer t v =>
        have hk : t.kind = .int := h.2.1
        simp [head, Atom.token, Grammar.Leaf.token, bare, hk, TokenKind.operandRule?]
    | badInteger t =>
      have hk : t.kind = .int := h.2.1
      simp [head, Atom.token, bare, hk, TokenKind.operandRule?]
    | missing t =>
      have hk : t.kind.operandRule? = none := h.2
      simp [head, Atom.token, bare, hk]
  · have hk : t.kind.isUnary := h.1 t (by simp)
    cases hkind : t.kind <;> simp_all [head, bare, TokenKind.isUnary, TokenKind.operandRule?]

end Operand

/-- An infix operator with the operand behind it. -/
abbrev Link := Token × Operand

namespace Link

def tokens (x : Link) : List Token := x.1 :: x.2.tokens

def moves (x : Link) : List Parser.Move := .advance :: .advance :: x.2.moves

def WellFormed (x : Link) : Prop := x.1.kind.isInfix ∧ x.2.WellFormed

instance (x : Link) : Decidable (WellFormed x) :=
  inferInstanceAs (Decidable (x.1.kind.isInfix ∧ x.2.WellFormed))

@[simp] theorem advances_moves (x : Link) :
    Parser.Move.advances x.moves = x.tokens.length := by
  simp [moves, tokens, Operand.length_tokens]

@[simp] theorem diagnostics_moves (x : Link) :
    Parser.Move.diagnostics x.moves = x.2.atom.diagnostics := by
  simp [moves]

end Link

/-! ## Grouping -/

/-- The links that belong to the right operand of the link before them. -/
def attached (x : Link) (xs : List Link) : List Link :=
  if x.2.bare then [] else xs.takeWhile fun y => x.1.kind.rank < y.1.kind.rank

/-- The links that the right operand leaves over. -/
def leftover (x : Link) (xs : List Link) : List Link :=
  if x.2.bare then xs else xs.dropWhile fun y => x.1.kind.rank < y.1.kind.rank

theorem attached_append_leftover (x : Link) (xs : List Link) :
    attached x xs ++ leftover x xs = xs := by
  unfold attached leftover
  split
  · rfl
  · exact List.takeWhile_append_dropWhile

theorem length_attached_le (x : Link) (xs : List Link) : (attached x xs).length ≤ xs.length := by
  have := congrArg List.length (attached_append_leftover x xs)
  rw [List.length_append] at this
  omega

theorem length_leftover_le (x : Link) (xs : List Link) : (leftover x xs).length ≤ xs.length := by
  have := congrArg List.length (attached_append_leftover x xs)
  rw [List.length_append] at this
  omega

/-- The tree of a left operand and the links behind it. -/
def group (left : Option Node) : List Link → Option Node
  | [] => left
  | x :: xs =>
    group (some (.infixOp x.1 x.1.literal left (group x.2.tree (attached x xs)))) (leftover x xs)
termination_by xs => xs.length
decreasing_by
  · exact Nat.lt_succ_of_le (length_attached_le x xs)
  · exact Nat.lt_succ_of_le (length_leftover_le x xs)

@[simp] theorem group_nil (left : Option Node) : group left [] = left := by
  rw [group]

theorem group_cons (left : Option Node) (x : Link) (xs : List Link) :
    group left (x :: xs) =
      group (some (.infixOp x.1 x.1.literal left (group x.2.tree (attached x xs))))
        (leftover x xs) := by
  rw [group]

/-- Links are grouped by an induction that follows the grouping. -/
theorem group_induct {motive : List Link → Prop} (nil : motive [])
    (cons : ∀ x xs, motive (attached x xs) → motive (leftover x xs) → motive (x :: xs))
    (xs : List Link) : motive xs := by
  induction h : xs.length using Nat.strongRecOn generalizing xs with
  | ind n ih =>
    cases xs with
    | nil => exact nil
    | cons x xs =>
      subst h
      exact cons x xs (ih _ (Nat.lt_succ_of_le (length_attached_le x xs)) _ rfl)
        (ih _ (Nat.lt_succ_of_le (length_leftover_le x xs)) _ rfl)

/-- Every link that belongs to a right operand binds tighter than the link before it. -/
theorem lt_of_mem_attached {x y : Link} {xs : List Link} (h : y ∈ attached x xs) :
    x.1.kind.rank < y.1.kind.rank := by
  unfold attached at h
  split at h
  · cases h
  · simpa using List.mem_takeWhile_imp h

/-- The first link that a right operand leaves over does not bind tighter, unless it is bare. -/
theorem not_lt_head_leftover {x y : Link} {xs ys : List Link} (hbare : x.2.bare = false)
    (h : leftover x xs = y :: ys) : ¬ x.1.kind.rank < y.1.kind.rank := by
  have hhead := List.head?_dropWhile_not (fun y : Link => x.1.kind.rank < y.1.kind.rank) xs
  rw [leftover, hbare, if_neg Bool.false_ne_true] at h
  rw [h] at hhead
  simpa using hhead

/-- A link that binds no tighter than the one in front keeps out of its right operand. -/
theorem attached_append_cons {x y : Link} {xs ys : List Link}
    (h : y.1.kind.rank ≤ x.1.kind.rank) : attached x (xs ++ y :: ys) = attached x xs := by
  have hy : decide (x.1.kind.rank < y.1.kind.rank) = false := by simpa using h
  unfold attached
  split
  · rfl
  · rw [List.takeWhile_append]
    split
    · rename_i hlen
      rw [List.takeWhile_cons, hy, if_neg Bool.false_ne_true, List.append_nil]
      exact ((List.takeWhile_prefix _).eq_of_length hlen).symm
    · rfl

theorem leftover_append_cons {x y : Link} {xs ys : List Link}
    (h : y.1.kind.rank ≤ x.1.kind.rank) :
    leftover x (xs ++ y :: ys) = leftover x xs ++ y :: ys := by
  have happ := attached_append_leftover x (xs ++ y :: ys)
  rw [attached_append_cons h] at happ
  have hxs := congrArg (· ++ y :: ys) (attached_append_leftover x xs)
  rw [List.append_assoc] at hxs
  exact List.append_cancel_left (happ.trans hxs.symm)

/-- A link owns the links behind it that all bind tighter. -/
theorem attached_eq_self {x : Link} {xs : List Link} (hbare : x.2.bare = false)
    (h : ∀ y ∈ xs, x.1.kind.rank < y.1.kind.rank) : attached x xs = xs ∧ leftover x xs = [] := by
  have hattached : attached x xs = xs := by
    rw [attached, hbare, if_neg Bool.false_ne_true, List.takeWhile_eq_self_iff]
    simpa using h
  have happend := attached_append_leftover x xs
  rw [hattached] at happend
  exact ⟨hattached, List.self_eq_append_right.mp happend.symm⟩

/-- The last operator of the lowest rank is the root. -/
theorem group_append_cons {left : Option Node} {y : Link} {before behind : List Link}
    (hbare : y.2.bare = false) (hb : ∀ x ∈ before, y.1.kind.rank ≤ x.1.kind.rank)
    (ha : ∀ x ∈ behind, y.1.kind.rank < x.1.kind.rank) :
    group left (before ++ y :: behind) =
      some (.infixOp y.1 y.1.literal (group left before) (group y.2.tree behind)) := by
  induction before using group_induct generalizing left with
  | nil =>
    obtain ⟨hattached, hleftover⟩ := attached_eq_self hbare ha
    rw [List.nil_append, group_cons, hattached, hleftover, group_nil, group_nil]
  | cons x xs _ ih =>
    have hx := hb x (by simp)
    have hleftover : ∀ z ∈ leftover x xs, y.1.kind.rank ≤ z.1.kind.rank := by
      intro z hz
      apply hb z
      rw [List.mem_cons, ← attached_append_leftover x xs]
      exact Or.inr (List.mem_append_right _ hz)
    rw [List.cons_append, group_cons, attached_append_cons hx, leftover_append_cons hx,
      ih hleftover, ← group_cons]

/-! ## Runs -/

structure Run where
  first : Operand
  rest : List Link
deriving DecidableEq, Repr

namespace Run

def tokens (w : Run) : List Token := w.first.tokens ++ w.rest.flatMap Link.tokens

def head (w : Run) : Token := w.first.head

def tree (w : Run) : Option Node := group w.first.tree w.rest

def moves (w : Run) : List Parser.Move := w.first.moves ++ w.rest.flatMap Link.moves

def diagnostics (w : Run) : List Diagnostic :=
  w.first.atom.diagnostics ++ w.rest.flatMap fun x => x.2.atom.diagnostics

/-- Nothing is attached to a bare operand. -/
def WellFormed (w : Run) : Prop :=
  w.first.WellFormed ∧ (w.first.bare → w.rest = []) ∧ ∀ x ∈ w.rest, x.WellFormed

instance (w : Run) : Decidable w.WellFormed :=
  inferInstanceAs (Decidable
    (w.first.WellFormed ∧ (w.first.bare → w.rest = []) ∧ ∀ x ∈ w.rest, x.WellFormed))

/-- Every infix operator binds tighter than the given rank. -/
def Above (rank : Int) (w : Run) : Prop := ∀ x ∈ w.rest, rank < x.1.kind.rank

/-- The token behind the run does not go on with it. -/
def EndsBefore (rank : Int) (w : Run) (next : Token) : Prop :=
  w.first.bare ∨ ¬ next.kind.Extends rank

instance (rank : Int) (w : Run) (next : Token) : Decidable (w.EndsBefore rank next) :=
  inferInstanceAs (Decidable (w.first.bare ∨ ¬ next.kind.Extends rank))

theorem head?_tokens (w : Run) : w.tokens.head? = some w.head := by
  rw [tokens, List.head?_append, Operand.head?_tokens]
  rfl

end Run

theorem advances_flatMap_moves (xs : List Link) :
    Parser.Move.advances (xs.flatMap Link.moves) = (xs.flatMap Link.tokens).length := by
  induction xs with
  | nil => rfl
  | cons x xs ih => simp [ih]

theorem diagnostics_flatMap_moves (xs : List Link) :
    Parser.Move.diagnostics (xs.flatMap Link.moves) =
      xs.flatMap fun x => x.2.atom.diagnostics := by
  induction xs with
  | nil => rfl
  | cons x xs ih => simp [ih]

namespace Run

theorem advances_moves (w : Run) : Parser.Move.advances w.moves + 1 = w.tokens.length := by
  simp only [moves, tokens, Parser.Move.advances_append, Operand.advances_moves,
    advances_flatMap_moves, List.length_append, Operand.length_tokens]
  omega

@[simp] theorem diagnostics_moves (w : Run) : Parser.Move.diagnostics w.moves = w.diagnostics := by
  simp [moves, diagnostics, diagnostics_flatMap_moves]

/-- The right operand of a link, with the links that belong to it. -/
def ofLink (x : Link) (xs : List Link) : Run := ⟨x.2, attached x xs⟩

theorem flatMap_tokens_cons (x : Link) (xs : List Link) :
    (x :: xs).flatMap Link.tokens =
      x.1 :: ((ofLink x xs).tokens ++ (leftover x xs).flatMap Link.tokens) := by
  rw [tokens, ofLink, List.append_assoc, ← List.flatMap_append, attached_append_leftover]
  rfl

theorem flatMap_moves_cons (x : Link) (xs : List Link) :
    (x :: xs).flatMap Link.moves =
      .advance :: .advance :: ((ofLink x xs).moves ++ (leftover x xs).flatMap Link.moves) := by
  rw [moves, ofLink, List.append_assoc, ← List.flatMap_append, attached_append_leftover]
  rfl

theorem group_cons_eq (left : Option Node) (x : Link) (xs : List Link) :
    group left (x :: xs) =
      group (some (.infixOp x.1 x.1.literal left (ofLink x xs).tree)) (leftover x xs) :=
  group_cons left x xs

end Run

end Recovery

end MonkeySyntax
