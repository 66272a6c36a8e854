import MonkeySyntax.Ast.Tokens
import MonkeySyntax.Proofs.Recovery.Program

/-!
# What a program keeps of its tokens

The tree of a program keeps some of its tokens in their order. Every other token is the assignment
sign of a let, a semicolon behind a statement, or one that a diagnostic accounts for. Each part of a
program balances on its own, so the whole does.
-/

namespace MonkeySyntax

/-- How many of the tokens passed over a diagnostic accounts for. -/
def Diagnostic.passed : Diagnostic → Nat
  | expectedNext .ident _ | noOperand _ | badInteger _ => 1
  | expectedNext .assign _ => 2
  | expectedNext .. | remark _ => 0

def Diagnostic.passedAll (ds : List Diagnostic) : Nat := ds.foldr (fun d n => d.passed + n) 0

@[simp] theorem Diagnostic.passedAll_nil : passedAll [] = 0 := rfl

@[simp] theorem Diagnostic.passedAll_cons (d : Diagnostic) (ds : List Diagnostic) :
    passedAll (d :: ds) = d.passed + passedAll ds := rfl

@[simp] theorem Diagnostic.passedAll_append (ds es : List Diagnostic) :
    passedAll (ds ++ es) = passedAll ds + passedAll es := by
  induction ds with
  | nil => simp
  | cons d ds ih => simp [ih, Nat.add_assoc]

/-- A token of the kind starts no operand and joins none. -/
structure TokenKind.Inert (k : TokenKind) : Prop where
  rule : k.operandRule? = none
  joins : k.isInfix = false

/-- Neither has any statement a token of the kind in front of its expression. -/
structure TokenKind.Foreign (k : TokenKind) : Prop extends k.Inert where
  leads : k ≠ .letKw ∧ k ≠ .returnKw ∧ k ≠ .assign

theorem TokenKind.inert_let : TokenKind.letKw.Inert := ⟨rfl, rfl⟩

theorem TokenKind.foreign_eof : TokenKind.eof.Foreign := ⟨⟨rfl, rfl⟩, by decide⟩

theorem TokenKind.foreign_semicolon : TokenKind.semicolon.Foreign := ⟨⟨rfl, rfl⟩, by decide⟩

theorem TokenKind.Inert.ne_ident {k : TokenKind} (h : k.Inert) : k ≠ .ident := by
  rintro rfl
  cases h.rule

namespace Recovery

/-! ## Kept tokens -/

def Atom.kept : Atom → List Token
  | leaf l => [l.token]
  | badInteger _ | missing _ => []

def Operand.kept (o : Operand) : List Token := o.operators ++ o.atom.kept

def Link.kept (x : Link) : List Token := x.1 :: x.2.kept

def Run.kept (w : Run) : List Token := w.first.kept ++ w.rest.flatMap Link.kept

def Lead.kept : Lead → List Token
  | letLead word name _ => [word, name]
  | returnLead word => [word]
  | plain => []

def Statement.kept : Statement → List Token
  | nameless .. | signless .. => []
  | full lead value _ => lead.kept ++ value.kept

theorem Operand.childTokens_tree (o : Operand) : Node.childTokens o.tree = o.kept := by
  obtain ⟨ts, a⟩ := o
  induction ts with
  | nil => rcases a with (_ | _) | _ | _ <;> rfl
  | cons t ts ih => exact congrArg (t :: ·) ih

theorem childTokens_group (left : Option Node) (xs : List Link) :
    Node.childTokens (group left xs) = Node.childTokens left ++ xs.flatMap Link.kept := by
  induction xs using group_induct generalizing left with
  | nil => simp
  | cons x xs hattached hleftover =>
    have hxs := congrArg (List.flatMap Link.kept) (attached_append_leftover x xs)
    rw [List.flatMap_append] at hxs
    rw [group_cons, hleftover, Node.childTokens, Node.tokens, hattached, x.2.childTokens_tree,
      List.flatMap_cons, ← hxs]
    simp [Link.kept]

theorem Run.childTokens_tree (w : Run) : Node.childTokens w.tree = w.kept := by
  rw [tree, childTokens_group, Operand.childTokens_tree, kept]

theorem Statement.childTokens_tree (s : Statement) : Node.childTokens s.tree = s.kept := by
  cases s with
  | nameless | signless => rfl
  | full lead value semicolon =>
    have hvalue := value.childTokens_tree
    cases lead with
    | letLead word name sign => exact congrArg (word :: name :: ·) hvalue
    | returnLead word => exact congrArg (word :: ·) hvalue
    | plain => exact hvalue

theorem Operand.kept_sublist (o : Operand) : o.kept.Sublist o.tokens := by
  refine (List.Sublist.refl _).append ?_
  rcases o.atom with _ | _ | _ <;> simp [Atom.kept, Atom.token]

theorem Run.kept_sublist (w : Run) : w.kept.Sublist w.tokens := by
  refine w.first.kept_sublist.append ?_
  induction w.rest with
  | nil => exact .slnil
  | cons x xs ih => exact (x.2.kept_sublist.cons_cons x.1).append ih

theorem Lead.kept_sublist (l : Lead) : l.kept.Sublist l.tokens := by
  cases l <;> simp [kept, tokens]

theorem Statement.kept_sublist (s : Statement) : s.kept.Sublist s.tokens := by
  cases s with
  | nameless | signless => simp [kept]
  | full lead value semicolon =>
    exact lead.kept_sublist.append (value.kept_sublist.trans (List.sublist_append_left _ _))

/-! ## Tokens that are not kept -/

def Statement.semicolon? : Statement → Option Token
  | nameless .. | signless .. => none
  | full _ _ semicolon => semicolon

def Statement.isLet : Statement → Bool
  | full (.letLead ..) .. => true
  | _ => false

theorem Operand.length_tokens_eq_kept (o : Operand) :
    o.tokens.length = o.kept.length + Diagnostic.passedAll o.atom.diagnostics := by
  rw [length_tokens, kept, List.length_append]
  rcases o.atom with _ | _ | _ <;> rfl

theorem Run.length_tokens (w : Run) :
    w.tokens.length = w.kept.length + Diagnostic.passedAll w.diagnostics := by
  obtain ⟨first, rest⟩ := w
  have hrest : (rest.flatMap Link.tokens).length = (rest.flatMap Link.kept).length +
      Diagnostic.passedAll (rest.flatMap fun x => x.2.atom.diagnostics) := by
    induction rest with
    | nil => rfl
    | cons x xs ih =>
      have hx := x.2.length_tokens_eq_kept
      simp only [List.flatMap_cons, List.length_append, Diagnostic.passedAll_append, ih,
        Link.tokens, Link.kept, List.length_cons]
      omega
  have hfirst := first.length_tokens_eq_kept
  simp only [tokens, kept, diagnostics, List.length_append, Diagnostic.passedAll_append]
  omega

theorem Statement.length_tokens (s : Statement) :
    s.tokens.length = s.kept.length + s.isLet.toNat + s.semicolon?.toList.length +
      Diagnostic.passedAll s.diagnostics := by
  cases s with
  | nameless | signless => rfl
  | full lead value semicolon =>
    have hvalue := value.length_tokens
    have hlead : lead.tokens.length =
        lead.kept.length + (Statement.full lead value semicolon).isLet.toNat := by
      cases lead <;> rfl
    simp only [tokens, kept, diagnostics, semicolon?, List.length_append]
    omega

/-! ## Tokens that no tree keeps -/

variable {k : TokenKind}

theorem Operand.ne_of_mem_kept {o : Operand} (h : o.WellFormed) (hk : k.Inert) :
    ∀ t ∈ o.kept, t.kind ≠ k := by
  obtain ⟨ts, a⟩ := o
  obtain ⟨hunary, hatom⟩ := h
  have hrule := hk.rule
  rintro t ht rfl
  rcases List.mem_append.mp ht with ht | ht
  · have hop := hunary t ht
    cases hkind : t.kind <;> simp_all [TokenKind.isUnary, TokenKind.operandRule?]
  · cases a with
    | leaf l =>
      obtain rfl := List.mem_singleton.mp ht
      cases l with
      | identifier t =>
        have hident : t.kind = .ident := hatom
        simp [Grammar.Leaf.token, hident, TokenKind.operandRule?] at hrule
      | integer t v => simp [Grammar.Leaf.token, hatom.1, TokenKind.operandRule?] at hrule
    | badInteger | missing => cases ht

theorem Operand.countP_tokens {o : Operand} (h : o.WellFormed) (hk : k.Inert) :
    o.tokens.countP (·.kind = k) = o.atom.diagnostics.count (.noOperand k) := by
  have hkept : o.kept.countP (·.kind = k) = 0 := by
    simpa [List.countP_eq_zero] using o.ne_of_mem_kept h hk
  obtain ⟨ts, a⟩ := o
  rw [kept, List.countP_append, Nat.add_eq_zero_iff] at hkept
  rw [tokens, List.countP_append, hkept.1, Nat.zero_add]
  cases a with
  | leaf l => exact hkept.2
  | badInteger t =>
    have hne : t.kind ≠ k := by
      rintro rfl
      simpa [h.2.1, TokenKind.operandRule?] using hk.rule
    simp [Atom.token, Atom.diagnostics, hne]
  | missing t => simp [Atom.token, Atom.diagnostics, List.count_singleton, List.countP_singleton]

theorem Link.ne_of_wellFormed {x : Link} (h : x.WellFormed) (hk : k.Inert) : x.1.kind ≠ k := by
  rintro rfl
  exact absurd h.1 (by simp [hk.joins])

theorem Run.ne_of_mem_kept {w : Run} (h : w.WellFormed) (hk : k.Inert) :
    ∀ t ∈ w.kept, t.kind ≠ k := by
  intro t ht
  rcases List.mem_append.mp ht with ht | ht
  · exact w.first.ne_of_mem_kept h.1 hk t ht
  · obtain ⟨x, hx, ht⟩ := List.mem_flatMap.mp ht
    rcases List.mem_cons.mp ht with rfl | ht
    · exact Link.ne_of_wellFormed (h.2.2 x hx) hk
    · exact x.2.ne_of_mem_kept (h.2.2 x hx).2 hk t ht

theorem countP_flatMap_tokens {xs : List Link} (h : ∀ x ∈ xs, x.WellFormed) (hk : k.Inert) :
    (xs.flatMap Link.tokens).countP (·.kind = k) =
      (xs.flatMap fun x => x.2.atom.diagnostics).count (.noOperand k) := by
  induction xs with
  | nil => rfl
  | cons x xs ih =>
    have hx := h x (by simp)
    have hop := Link.ne_of_wellFormed hx hk
    have hxs := ih fun y hy => h y (List.mem_cons_of_mem _ hy)
    rw [List.flatMap_cons, List.flatMap_cons, List.countP_append, List.count_append, hxs,
      Link.tokens, List.countP_cons_of_neg (by simpa using hop), x.2.countP_tokens hx.2 hk]

theorem Run.countP_tokens {w : Run} (h : w.WellFormed) (hk : k.Inert) :
    w.tokens.countP (·.kind = k) = w.diagnostics.count (.noOperand k) := by
  rw [tokens, diagnostics, List.countP_append, List.count_append, w.first.countP_tokens h.1 hk,
    countP_flatMap_tokens h.2.2 hk]

theorem Lead.ne_of_mem_tokens {l : Lead} (h : l.WellFormed) (hk : k.Foreign) :
    ∀ t ∈ l.tokens, t.kind ≠ k := by
  have hident := hk.ne_ident
  obtain ⟨hlet, hreturn, hassign⟩ := hk.leads
  cases l with
  | letLead word name sign =>
    simp [tokens, h.1, h.2.1, h.2.2, hlet.symm, hident.symm, hassign.symm]
  | returnLead word =>
    have hword : word.kind = .returnKw := h
    simp [tokens, hword, hreturn.symm]
  | plain => simp [tokens]

theorem Statement.ne_of_mem_kept {s : Statement} (h : s.WellFormed) (hk : k.Foreign) :
    ∀ t ∈ s.kept, t.kind ≠ k := by
  cases s with
  | nameless | signless => simp [kept]
  | full lead value semicolon =>
    intro t ht
    rcases List.mem_append.mp ht with ht | ht
    · exact lead.ne_of_mem_tokens h.1 hk t (lead.kept_sublist.subset ht)
    · exact value.ne_of_mem_kept h.2.1 hk.toInert t ht

/-- A token of a foreign kind leaves a diagnostic, unless it ends the statement. -/
theorem Statement.countP_tokens {s : Statement} (h : s.WellFormed) (hk : k.Foreign) :
    s.tokens.countP (·.kind = k) =
      s.diagnostics.count (.noOperand k) + s.semicolon?.toList.countP (·.kind = k) := by
  have hident := hk.ne_ident
  obtain ⟨hlet, hreturn, hassign⟩ := hk.leads
  cases s with
  | nameless word got => simp [tokens, diagnostics, semicolon?, h.1, hlet.symm]
  | signless word name got =>
    simp [tokens, diagnostics, semicolon?, h.1, h.2.1, hlet.symm, hident.symm]
  | full lead value semicolon =>
    have hlead : lead.tokens.countP (·.kind = k) = 0 := by
      simpa [List.countP_eq_zero] using lead.ne_of_mem_tokens h.1 hk
    rw [tokens, List.countP_append, List.countP_append, hlead,
      value.countP_tokens h.2.1 hk.toInert, Nat.zero_add]
    rfl

/-! ## The balance of a program -/

namespace Program

variable {s : Statement} {ss : List Statement} {next : Token}

def kept (ss : List Statement) : List Token := ss.flatMap Statement.kept

/-- The semicolons that end statements. -/
def semicolons (ss : List Statement) : List Token := ss.flatMap fun s => s.semicolon?.toList

@[simp] theorem kept_cons : kept (s :: ss) = s.kept ++ kept ss := rfl

@[simp] theorem semicolons_cons : semicolons (s :: ss) = s.semicolon?.toList ++ semicolons ss := rfl

theorem tokensAll_trees (ss : List Statement) : Node.tokensAll (trees ss) = kept ss := by
  induction ss with
  | nil => rfl
  | cons s ss ih =>
    have hs := s.childTokens_tree
    rw [trees_cons, kept_cons, ← hs, ← ih]
    cases s.tree <;> rfl

theorem kept_sublist (ss : List Statement) : (kept ss).Sublist (tokens ss) := by
  induction ss with
  | nil => exact .slnil
  | cons s ss ih => exact s.kept_sublist.append ih

theorem countP_isLet_cons (s : Statement) (ss : List Statement) :
    (s :: ss).countP Statement.isLet = s.isLet.toNat + ss.countP Statement.isLet := by
  cases h : s.isLet <;> simp [h, Nat.add_comm]

theorem length_tokens (ss : List Statement) :
    (tokens ss).length = (kept ss).length + ss.countP Statement.isLet + (semicolons ss).length +
      Diagnostic.passedAll (diagnostics ss) := by
  induction ss with
  | nil => rfl
  | cons s ss ih =>
    have hs := s.length_tokens
    have hlet := countP_isLet_cons s ss
    simp only [tokens_cons, kept_cons, semicolons_cons, diagnostics_cons, List.length_append,
      Diagnostic.passedAll_append]
    omega

theorem ne_of_mem_kept {k : TokenKind} (h : ∀ s ∈ ss, s.WellFormed) (hk : k.Foreign) :
    ∀ t ∈ kept ss, t.kind ≠ k := by
  intro t ht
  obtain ⟨s, hs, ht⟩ := List.mem_flatMap.mp ht
  exact s.ne_of_mem_kept (h s hs) hk t ht

theorem countP_tokens {k : TokenKind} (h : ∀ s ∈ ss, s.WellFormed) (hk : k.Foreign) :
    (tokens ss).countP (·.kind = k) =
      (diagnostics ss).count (.noOperand k) + (semicolons ss).countP (·.kind = k) := by
  induction ss with
  | nil => rfl
  | cons s ss ih =>
    obtain ⟨hs, hss⟩ := List.forall_mem_cons.mp h
    rw [tokens_cons, List.countP_append, s.countP_tokens hs hk, ih hss, diagnostics_cons,
      List.count_append, semicolons_cons, List.countP_append]
    omega

theorem kind_of_mem_semicolons (h : ∀ s ∈ ss, s.WellFormed) :
    ∀ t ∈ semicolons ss, t.kind = .semicolon := by
  intro t ht
  obtain ⟨s, hs, ht⟩ := List.mem_flatMap.mp ht
  cases s with
  | nameless | signless => cases ht
  | full lead value semicolon => exact (h _ hs).2.2.2 t (by simpa [Statement.semicolon?] using ht)

/-- Each end of input that was read leaves a diagnostic. -/
theorem countP_eof (h : ∀ s ∈ ss, s.WellFormed) :
    (tokens ss).countP (·.kind = .eof) = (diagnostics ss).count (.noOperand .eof) := by
  have hnone : (semicolons ss).countP (·.kind = .eof) = 0 := by
    simp only [List.countP_eq_zero, decide_eq_true_eq]
    intro t ht heof
    rw [kind_of_mem_semicolons h t ht] at heof
    cases heof
  rw [countP_tokens h TokenKind.foreign_eof, hnone, Nat.add_zero]

theorem countP_semicolon (h : ∀ s ∈ ss, s.WellFormed) :
    (tokens ss).countP (·.kind = .semicolon) =
      (diagnostics ss).count (.noOperand .semicolon) + (semicolons ss).length := by
  have hall : (semicolons ss).countP (·.kind = .semicolon) = (semicolons ss).length := by
    simpa [List.countP_eq_length] using kind_of_mem_semicolons h
  rw [countP_tokens h TokenKind.foreign_semicolon, hall]

end Program

end Recovery

end MonkeySyntax
