import MonkeySyntax.Diagnostic

/-!
# Tokens and their sources

A token is a kind, the text that was read, and the line and column of its first character, counted
from one. Line and column are zero for a token that stands in no source.

A source delivers one token at a time and, once it is exhausted, end-of-input tokens for ever. It
knows a bound on what it may still deliver before that; the bound drops with every token, which is
what makes reading to the end terminate.
-/

namespace MonkeySyntax

structure Token where
  kind : TokenKind
  literal : String
  line : Int
  col : Int
deriving DecidableEq, Repr

namespace Token

/-- The end of input where no source gives it a position. -/
def endOfInput : Token := ⟨.eof, "", 0, 0⟩

/-- The short form for display: kind and quoted literal, without the position. -/
def display (t : Token) : String :=
  s!"Token({t.kind.name}, {Text.quoted t.literal})"

/-- Agreement on everything but the position. -/
def SameText (s t : Token) : Prop := s.kind = t.kind ∧ s.literal = t.literal

end Token

/-! ## Sources of tokens -/

class TokenSource (σ : Type) where
  pull : σ → Token × σ
  /-- A bound on the tokens before the endless end of input. -/
  remaining : σ → Nat
  /-- What the source notes when it delivers a token. -/
  notice : Token → Option LogEntry
  diagnostic?_notice : ∀ t, ∀ e ∈ notice t, e.diagnostic? = none
  remaining_pull_lt : ∀ s, remaining s ≠ 0 → remaining (pull s).2 < remaining s
  exhausted : ∀ s, remaining s = 0 → (pull s).1.kind = .eof ∧ remaining (pull s).2 = 0

/-- Prepared tokens, served in order. An end-of-input token among them is served like any other. -/
structure TokenQueue where
  pending : List Token
  served : Nat
deriving DecidableEq, Repr

namespace TokenQueue

def ofList (ts : List Token) : TokenQueue := ⟨ts, 0⟩

def next (q : TokenQueue) : Token × TokenQueue :=
  match q.pending with
  | [] => (Token.endOfInput, q)
  | t :: ts => (t, ⟨ts, q.served + 1⟩)

instance : TokenSource TokenQueue where
  pull := next
  remaining q := q.pending.length
  notice _ := none
  diagnostic?_notice _ _ h := nomatch h
  remaining_pull_lt q h := by
    obtain ⟨_ | ⟨t, ts⟩, n⟩ := q
    · exact absurd rfl h
    · exact Nat.lt_succ_self _
  exhausted q h := by
    obtain ⟨_ | ⟨t, ts⟩, n⟩ := q
    · exact ⟨rfl, rfl⟩
    · cases h

end TokenQueue

end MonkeySyntax
