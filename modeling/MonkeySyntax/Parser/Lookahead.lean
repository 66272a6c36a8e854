import MonkeySyntax.Parser.State

/-!
# Looking ahead

The parser after a number of advances, and the token that it comes to stand on. The main statement
is that a parser of prepared tokens stands on them one after the other, and then on the end of input
for ever.
-/

namespace MonkeySyntax

namespace TokenQueue

/-- The tokens still to come, by their distance. -/
def upcoming (q : TokenQueue) (n : Nat) : Token := q.pending.getD n .endOfInput

theorem upcoming_zero (q : TokenQueue) : q.upcoming 0 = q.next.1 := by
  obtain ⟨_ | ⟨t, ts⟩, k⟩ := q <;> rfl

theorem upcoming_succ (q : TokenQueue) (n : Nat) : q.upcoming (n + 1) = q.next.2.upcoming n := by
  obtain ⟨_ | ⟨t, ts⟩, k⟩ := q <;> rfl

end TokenQueue

namespace Parser

variable {σ : Type} [TokenSource σ]

/-- The parser after a number of advances. -/
def forward (p : Parser σ) : Nat → Parser σ
  | 0 => p
  | n + 1 => p.advance.forward n

/-- The token that is current after a number of advances. -/
def ahead (p : Parser σ) (n : Nat) : Token := (p.forward n).cur

@[simp] theorem forward_zero (p : Parser σ) : p.forward 0 = p := rfl

theorem forward_succ (p : Parser σ) (n : Nat) : p.forward (n + 1) = p.advance.forward n := rfl

theorem forward_add (p : Parser σ) (m n : Nat) : p.forward (m + n) = (p.forward m).forward n := by
  induction m generalizing p with
  | zero => simp
  | succ m ih => rw [Nat.add_right_comm, forward_succ, forward_succ, ih]

@[simp] theorem ahead_zero (p : Parser σ) : p.ahead 0 = p.cur := rfl

theorem ahead_forward (p : Parser σ) (m n : Nat) : (p.forward m).ahead n = p.ahead (m + n) := by
  rw [ahead, ahead, forward_add]

theorem ahead_advance (p : Parser σ) (n : Nat) : p.advance.ahead n = p.ahead (n + 1) := rfl

theorem cur_forward (p : Parser σ) (n : Nat) : (p.forward n).cur = p.ahead n := rfl

@[simp] theorem diagnostics_forward (p : Parser σ) (n : Nat) :
    (p.forward n).diagnostics = p.diagnostics := by
  induction n generalizing p with
  | zero => rfl
  | succ n ih => rw [forward_succ, ih, diagnostics_advance]

/-! ## Prepared tokens -/

theorem ahead_add_two (p : Parser TokenQueue) (n : Nat) :
    p.ahead (n + 2) = p.source.upcoming n := by
  induction n generalizing p with
  | zero => exact p.source.upcoming_zero.symm
  | succ n ih => rw [← ahead_advance, ih, TokenQueue.upcoming_succ]; rfl

/-- A parser of prepared tokens stands on them one after the other. -/
theorem ahead_ofSource_ofList (ts : List Token) (n : Nat) :
    (ofSource (TokenQueue.ofList ts)).ahead n = ts.getD n .endOfInput := by
  match ts, n with
  | [], 0 | [], 1 | [_], 0 | [_], 1 | _ :: _ :: _, 0 | _ :: _ :: _, 1 => rfl
  | [], _ + 2 | [_], _ + 2 => rw [ahead_add_two]; rfl
  | _ :: _ :: _, _ + 2 => rw [ahead_add_two]; rfl

end Parser

end MonkeySyntax
