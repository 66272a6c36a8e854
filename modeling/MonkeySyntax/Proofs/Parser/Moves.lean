import MonkeySyntax.Parser.Lookahead

/-!
# Moves of a parser

Whatever a parser does to its state is a sequence of two moves: it advances by one token, or it
records a diagnostic. How many advances there are fixes the tokens that it sees afterwards, and the
diagnostics among the moves are what they add. No tree is mentioned here.
-/

namespace MonkeySyntax.Parser

inductive Move where
  | advance
  | diagnose (d : Diagnostic)
deriving DecidableEq, Repr

namespace Move

def diagnostic? : Move → Option Diagnostic
  | advance => none
  | diagnose d => some d

/-- How many of the moves are advances. -/
def advances (ms : List Move) : Nat := ms.count .advance

def diagnostics (ms : List Move) : List Diagnostic := ms.filterMap diagnostic?

@[simp] theorem advances_nil : advances [] = 0 := rfl

@[simp] theorem advances_advance (ms : List Move) :
    advances (.advance :: ms) = advances ms + 1 := by
  simp [advances]

@[simp] theorem advances_diagnose (d : Diagnostic) (ms : List Move) :
    advances (.diagnose d :: ms) = advances ms := by
  simp [advances]

@[simp] theorem advances_append (ms ns : List Move) :
    advances (ms ++ ns) = advances ms + advances ns := by
  simp [advances]

@[simp] theorem advances_replicate (n : Nat) : advances (List.replicate n .advance) = n := by
  simp [advances]

@[simp] theorem advances_map_diagnose (ds : List Diagnostic) : advances (ds.map .diagnose) = 0 := by
  simp [advances, List.count_eq_zero]

@[simp] theorem diagnostics_nil : diagnostics [] = [] := rfl

@[simp] theorem diagnostics_advance (ms : List Move) :
    diagnostics (.advance :: ms) = diagnostics ms := rfl

@[simp] theorem diagnostics_diagnose (d : Diagnostic) (ms : List Move) :
    diagnostics (.diagnose d :: ms) = d :: diagnostics ms := rfl

@[simp] theorem diagnostics_append (ms ns : List Move) :
    diagnostics (ms ++ ns) = diagnostics ms ++ diagnostics ns := by
  simp [diagnostics]

@[simp] theorem diagnostics_replicate (n : Nat) :
    diagnostics (List.replicate n .advance) = [] := by
  simp [diagnostics, diagnostic?]

@[simp] theorem diagnostics_map_diagnose (ds : List Diagnostic) :
    diagnostics (ds.map .diagnose) = ds := by
  simp [diagnostics, Function.comp_def, diagnostic?]

end Move

variable {σ : Type} [TokenSource σ]

/-- The parser after moves in their order. -/
def follow (p : Parser σ) : List Move → Parser σ
  | [] => p
  | .advance :: ms => p.advance.follow ms
  | .diagnose d :: ms => (p.diagnose d).follow ms

@[simp] theorem follow_nil (p : Parser σ) : p.follow [] = p := rfl

@[simp] theorem follow_advance (p : Parser σ) (ms : List Move) :
    p.follow (.advance :: ms) = p.advance.follow ms := rfl

@[simp] theorem follow_diagnose (p : Parser σ) (d : Diagnostic) (ms : List Move) :
    p.follow (.diagnose d :: ms) = (p.diagnose d).follow ms := rfl

theorem follow_append (p : Parser σ) (ms ns : List Move) :
    p.follow (ms ++ ns) = (p.follow ms).follow ns := by
  induction ms generalizing p with
  | nil => rfl
  | cons m ms ih => cases m <;> exact ih _

theorem follow_replicate (p : Parser σ) (n : Nat) :
    p.follow (List.replicate n .advance) = p.forward n := by
  induction n generalizing p with
  | zero => rfl
  | succ n ih => exact ih _

/-- What a parser comes to see does not depend on what it has recorded. -/
theorem ahead_congr {p q : Parser σ} (hsource : p.source = q.source) (hcur : p.cur = q.cur)
    (hpeek : p.peek = q.peek) (n : Nat) : p.ahead n = q.ahead n := by
  induction n generalizing p q with
  | zero => exact hcur
  | succ n ih =>
    rw [← ahead_advance, ← ahead_advance]
    apply ih
    · simp [advance, hsource]
    · exact hpeek
    · simp [advance, hsource]

@[simp] theorem ahead_diagnose (p : Parser σ) (d : Diagnostic) (n : Nat) :
    (p.diagnose d).ahead n = p.ahead n := by
  apply ahead_congr <;> rfl

theorem ahead_follow (p : Parser σ) (ms : List Move) (n : Nat) :
    (p.follow ms).ahead n = p.ahead (Move.advances ms + n) := by
  induction ms generalizing p with
  | nil => simp
  | cons m ms ih =>
    cases m with
    | advance =>
      rw [follow_advance, ih, ahead_advance, Move.advances_advance]
      congr 1
      omega
    | diagnose d => rw [follow_diagnose, ih, ahead_diagnose, Move.advances_diagnose]

theorem peek_follow (p : Parser σ) (ms : List Move) :
    (p.follow ms).peek = p.ahead (Move.advances ms + 1) := p.ahead_follow ms 1

@[simp] theorem pulled_follow (p : Parser σ) (ms : List Move) :
    (p.follow ms).pulled = p.pulled + Move.advances ms := by
  induction ms generalizing p with
  | nil => rfl
  | cons m ms ih =>
    cases m with
    | advance =>
      rw [follow_advance, ih, pulled_advance, Move.advances_advance]
      omega
    | diagnose d => rw [follow_diagnose, ih, pulled_diagnose, Move.advances_diagnose]

@[simp] theorem diagnostics_follow (p : Parser σ) (ms : List Move) :
    (p.follow ms).diagnostics = p.diagnostics ++ Move.diagnostics ms := by
  induction ms generalizing p with
  | nil => simp
  | cons m ms ih => cases m <;> simp [ih]

/-- Moves without a diagnostic only pass tokens. -/
theorem follow_eq_forward {p : Parser σ} {ms : List Move} (h : Move.diagnostics ms = []) :
    p.follow ms = p.forward (Move.advances ms) := by
  induction ms generalizing p with
  | nil => rfl
  | cons m ms ih =>
    cases m with
    | advance =>
      rw [follow_advance, ih (by simpa using h), Move.advances_advance, forward_succ]
    | diagnose d => simp at h

/-! ## The tokens in front of a parser -/

/-- The tokens stand in front of the parser, from the current one on. -/
def Faces (p : Parser σ) : List Token → Prop
  | [] => True
  | t :: ts => p.cur = t ∧ p.advance.Faces ts

@[simp] theorem faces_nil (p : Parser σ) : p.Faces [] := trivial

@[simp] theorem faces_cons (p : Parser σ) (t : Token) (ts : List Token) :
    p.Faces (t :: ts) ↔ p.cur = t ∧ p.advance.Faces ts := Iff.rfl

theorem faces_append (p : Parser σ) (ts us : List Token) :
    p.Faces (ts ++ us) ↔ p.Faces ts ∧ (p.forward ts.length).Faces us := by
  induction ts generalizing p with
  | nil => simp
  | cons t ts ih =>
    rw [List.cons_append, faces_cons, faces_cons, ih, List.length_cons, forward_succ, and_assoc]

theorem faces_iff_ahead (p : Parser σ) (ts : List Token) :
    p.Faces ts ↔ ∀ i (h : i < ts.length), p.ahead i = ts[i] := by
  induction ts generalizing p with
  | nil => simp
  | cons t ts ih =>
    rw [faces_cons, ih]
    constructor
    · rintro ⟨hcur, hrest⟩ i hi
      cases i with
      | zero => exact hcur
      | succ i => exact hrest i (by simpa using hi)
    · intro h
      exact ⟨h 0 (by simp), fun i hi => h (i + 1) (by simpa using hi)⟩

/-- What stands behind moves depends on how many of them are advances. -/
theorem faces_follow (p : Parser σ) (ms : List Move) (ts : List Token) :
    (p.follow ms).Faces ts ↔ (p.forward (Move.advances ms)).Faces ts := by
  simp only [faces_iff_ahead, ahead_follow, ahead_forward]

theorem faces_advance_follow (p : Parser σ) (ms : List Move) (ts : List Token) :
    (p.follow ms).advance.Faces ts ↔ (p.forward (Move.advances ms + 1)).Faces ts := by
  simp only [faces_iff_ahead, ahead_advance, ahead_follow, ahead_forward, Nat.add_assoc,
    Nat.add_comm 1]

theorem Faces.ahead_length {p : Parser σ} {ts us : List Token} {t : Token}
    (h : p.Faces (ts ++ t :: us)) : p.ahead ts.length = t := ((p.faces_append _ _).mp h).2.1

theorem Faces.cur_eq {p : Parser σ} {ts : List Token} {t : Token} (h : p.Faces ts)
    (ht : ts.head? = some t) : p.cur = t := by
  cases ts with
  | nil => cases ht
  | cons u us => exact h.1.trans (Option.some.inj ht)

end MonkeySyntax.Parser
