import MonkeySyntax.Proofs.Recovery.Program

/-!
# Integers of a program

Every integer among the tokens of a program was converted, or was found to denote no number within
range. Of the latter the diagnostics name the literals, in their order and nothing else. Both hold
of each part of a program and are kept when parts are put together.
-/

namespace MonkeySyntax

/-- No conversion of the token as a decimal integer is refused for its length. -/
def Token.WithinLimit (t : Token) : Prop :=
  t.kind = .int → ∀ n ∈ Numeral.ofChars? t.literal.toList,
    n.base = 10 → n.digits.length ≤ OverlongNumeral.limit

theorem Token.WithinLimit.readInt64_ne_error {t : Token} (h : t.WithinLimit) (hk : t.kind = .int)
    (e : OverlongNumeral) : readInt64 t.literal ≠ .error e := by
  unfold readInt64
  cases hn : Numeral.ofChars? t.literal.toList with
  | none => simp
  | some n =>
    have hshort : n.overlong = false := by
      simpa [Numeral.overlong] using h hk n hn
    simp only [hshort, Bool.false_eq_true, if_false]
    split <;> simp

/-- The literal of an integer token that denotes no number within range. -/
def Token.badLiteral? (t : Token) : Option String :=
  if t.kind = .int ∧ readInt64 t.literal = .ok none then some t.literal else none

def Diagnostic.badLiteral? : Diagnostic → Option String
  | badInteger literal => some literal
  | _ => none

namespace Token

variable {t : Token}

theorem badLiteral?_of_ne_int (h : t.kind ≠ .int) : t.badLiteral? = none := by
  simp [badLiteral?, h]

theorem withinLimit_of_ne_int (h : t.kind ≠ .int) : t.WithinLimit := by
  intro hk
  exact absurd hk h

theorem forall_withinLimit {ts : List Token} (h : ∀ t ∈ ts, t.kind ≠ .int) :
    ∀ t ∈ ts, t.WithinLimit :=
  fun t ht => withinLimit_of_ne_int (h t ht)

/-- Within the limit are exactly the tokens whose conversion is not refused. -/
theorem withinLimit_iff :
    t.WithinLimit ↔ (t.kind = .int → ∃ v, readInt64 t.literal = .ok v) := by
  constructor
  · intro h hk
    cases hread : readInt64 t.literal with
    | ok v => exact ⟨v, rfl⟩
    | error e => exact absurd hread (h.readInt64_ne_error hk e)
  · intro h hk n hn hbase
    obtain ⟨v, hv⟩ := h hk
    by_contra hlong
    have hover : n.overlong = true := by
      simp only [Numeral.overlong, hbase, beq_self_eq_true, Bool.true_and, decide_eq_true_eq]
      omega
    rw [readInt64, Option.mem_def.mp hn] at hv
    simp [hover] at hv

theorem withinLimit_of_read {v : Option Int} (h : readInt64 t.literal = .ok v) :
    t.WithinLimit := by
  rw [withinLimit_iff]
  intro _
  exact ⟨v, h⟩

theorem not_withinLimit {e : OverlongNumeral} (hk : t.kind = .int)
    (h : readInt64 t.literal = .error e) : ¬ t.WithinLimit := by
  intro hlimit
  exact hlimit.readInt64_ne_error hk e h

end Token

namespace Recovery

/-- The integers among the tokens can be converted, and the diagnostics name the bad ones. -/
structure Reports (ts : List Token) (ds : List Diagnostic) : Prop where
  withinLimit : ∀ t ∈ ts, t.WithinLimit
  literals : ds.filterMap Diagnostic.badLiteral? = ts.filterMap Token.badLiteral?

namespace Reports

variable {ts us : List Token} {ds es : List Diagnostic}

/-- Tokens that are no integers need no diagnostic of a bad one. -/
theorem of_ne_int (hts : ∀ t ∈ ts, t.kind ≠ .int)
    (hds : ∀ d ∈ ds, d.badLiteral? = none) : Reports ts ds where
  withinLimit := Token.forall_withinLimit hts
  literals := by
    have hnone : ∀ t ∈ ts, t.badLiteral? = none := by
      intro t ht
      exact Token.badLiteral?_of_ne_int (hts t ht)
    rw [List.filterMap_eq_nil_iff.mpr hds, List.filterMap_eq_nil_iff.mpr hnone]

theorem nil : Reports [] [] := of_ne_int (by simp) (by simp)

theorem append (h : Reports ts ds) (h' : Reports us es) : Reports (ts ++ us) (ds ++ es) where
  withinLimit t ht := by
    rcases List.mem_append.mp ht with ht | ht
    · exact h.withinLimit t ht
    · exact h'.withinLimit t ht
  literals := by
    rw [List.filterMap_append, List.filterMap_append, h.literals, h'.literals]

theorem of_append_ne_int (h : Reports (ts ++ us) ds) (hus : ∀ t ∈ us, t.kind ≠ .int) :
    Reports ts ds where
  withinLimit t ht := h.withinLimit t (List.mem_append_left _ ht)
  literals := by
    have hnone : us.filterMap Token.badLiteral? = [] := by
      rw [List.filterMap_eq_nil_iff]
      intro t ht
      exact Token.badLiteral?_of_ne_int (hus t ht)
    rw [h.literals, List.filterMap_append, hnone, List.append_nil]

end Reports

theorem Atom.reports {a : Atom} (h : a.WellFormed) : Reports [a.token] a.diagnostics := by
  cases a with
  | leaf l =>
    cases l with
    | identifier t =>
      have hident : t.kind = .ident := h
      apply Reports.of_ne_int
      · simp [token, Grammar.Leaf.token, hident]
      · simp [diagnostics]
    | integer t v =>
      have hlimit : t.WithinLimit := Token.withinLimit_of_read h.2
      have hgood : t.badLiteral? = none := by simp [Token.badLiteral?, h.2]
      exact ⟨by simpa [token, Grammar.Leaf.token] using hlimit,
        by simp [token, Grammar.Leaf.token, diagnostics, hgood]⟩
  | badInteger t =>
    have hlimit : t.WithinLimit := Token.withinLimit_of_read h.2
    have hbad : t.badLiteral? = some t.literal := by simp [Token.badLiteral?, h.1, h.2]
    exact ⟨by simpa [token] using hlimit,
      by simp [token, diagnostics, Diagnostic.badLiteral?, hbad]⟩
  | missing t =>
    have hrule : t.kind.operandRule? = none := h
    have hne : t.kind ≠ .int := by
      intro hint
      simp [hint, TokenKind.operandRule?] at hrule
    apply Reports.of_ne_int
    · simpa [token] using hne
    · simp [diagnostics, Diagnostic.badLiteral?]

theorem reports_of_isUnary {ts : List Token} (h : ∀ t ∈ ts, t.kind.isUnary) : Reports ts [] := by
  apply Reports.of_ne_int
  · intro t ht hint
    have hunary := h t ht
    simp [hint, TokenKind.isUnary] at hunary
  · simp

theorem reports_of_isInfix {t : Token} (h : t.kind.isInfix) : Reports [t] [] := by
  apply Reports.of_ne_int
  · intro u hu hint
    obtain rfl := List.mem_singleton.mp hu
    simp [hint, TokenKind.isInfix, TokenKind.infixLevel?] at h
  · simp

theorem Operand.reports {o : Operand} (h : o.WellFormed) : Reports o.tokens o.atom.diagnostics :=
  (reports_of_isUnary h.1).append (Atom.reports h.2)

theorem Link.reports {x : Link} (h : x.WellFormed) : Reports x.tokens x.2.atom.diagnostics :=
  (reports_of_isInfix h.1).append (x.2.reports h.2)

theorem reports_flatMap {xs : List Link} (h : ∀ x ∈ xs, x.WellFormed) :
    Reports (xs.flatMap Link.tokens) (xs.flatMap fun x => x.2.atom.diagnostics) := by
  induction xs with
  | nil => exact .nil
  | cons x xs ih =>
    obtain ⟨hx, hxs⟩ := List.forall_mem_cons.mp h
    exact (Link.reports hx).append (ih hxs)

theorem Run.reports {w : Run} (h : w.WellFormed) : Reports w.tokens w.diagnostics :=
  (w.first.reports h.1).append (reports_flatMap h.2.2)

theorem Lead.reports {l : Lead} (h : l.WellFormed) : Reports l.tokens [] := by
  apply Reports.of_ne_int
  · cases l with
    | letLead word name sign => simp [tokens, h.1, h.2.1, h.2.2]
    | returnLead word =>
      have hword : word.kind = .returnKw := h
      simp [tokens, hword]
    | plain => simp [tokens]
  · simp

theorem Statement.reports {s : Statement} (h : s.WellFormed) : Reports s.tokens s.diagnostics := by
  cases s with
  | nameless word got =>
    apply Reports.of_ne_int
    · simp [tokens, h.1]
    · simp [diagnostics, Diagnostic.badLiteral?]
  | signless word name got =>
    apply Reports.of_ne_int
    · simp [tokens, h.1, h.2.1]
    · simp [diagnostics, Diagnostic.badLiteral?]
  | full lead value semicolon =>
    obtain ⟨hlead, hvalue, -, hsemi⟩ := h
    have hbehind : Reports semicolon.toList [] := by
      apply Reports.of_ne_int
      · intro t ht
        rw [hsemi t (by simpa using ht)]
        decide
      · simp
    have hall := (lead.reports hlead).append ((value.reports hvalue).append hbehind)
    rw [List.nil_append, List.append_nil] at hall
    exact hall

theorem Program.reports {ss : List Statement} (h : ∀ s ∈ ss, s.WellFormed) :
    Reports (tokens ss) (diagnostics ss) := by
  induction ss with
  | nil => exact .nil
  | cons s ss ih =>
    obtain ⟨hs, hss⟩ := List.forall_mem_cons.mp h
    exact (s.reports hs).append (ih hss)

end Recovery

end MonkeySyntax
