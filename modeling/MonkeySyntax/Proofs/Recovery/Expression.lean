import MonkeySyntax.Proofs.Recovery.Integers

/-!
# Expressions as runs

The parser of expressions reads exactly the runs of `Recovery`: in front of a run that ends there it
answers the tree of the run and makes the moves of the run, and whatever tokens there are, it is in
front of such a run unless it meets an integer with too many digits. Both hold at any rank, before
any continuation and for any source of tokens.
-/

namespace MonkeySyntax.Parser

open Recovery

variable {σ : Type} [TokenSource σ] {p : Parser σ} {rank : Int}

/-! ## The rules one by one -/

theorem atom_eq_tree {a : Atom} (hwf : a.WellFormed) (hcur : p.cur = a.token) :
    p.atom = (.ok a.tree, p.follow (a.diagnostics.map .diagnose)) := by
  cases a with
  | leaf l =>
    cases l with
    | identifier t =>
      have hcur : p.cur = t := hcur
      have hk : t.kind = .ident := hwf
      simp [atom, hcur, hk, identifier, Atom.tree, Grammar.Leaf.tree, Atom.diagnostics]
    | integer t v =>
      have hcur : p.cur = t := hcur
      simp [atom, hcur, hwf.1, integer, hwf.2, Atom.tree, Grammar.Leaf.tree, Atom.diagnostics]
  | badInteger t =>
    have hcur : p.cur = t := hcur
    simp [atom, hcur, hwf.1, integer, hwf.2, Atom.tree, Atom.diagnostics]
  | missing t =>
    have hcur : p.cur = t := hcur
    have hk : p.cur.kind.operandRule? = none := hcur ▸ hwf
    unfold atom
    split
    · rename_i hident
      rw [hident] at hk
      cases hk
    · rename_i hint
      rw [hint] at hk
      cases hk
    · simp [Atom.tree, Atom.diagnostics, hcur]

theorem unaryRun_eq {us : List Token} {t : Token} (hus : ∀ u ∈ us, u.kind.isUnary)
    (ht : t.kind.isUnary = false) (hfaces : p.Faces (us ++ [t])) :
    p.unaryRun = (us, p.forward us.length) := by
  induction us generalizing p with
  | nil =>
    have hcur : p.cur = t := hfaces.1
    rw [unaryRun, dif_neg (by simp [hcur, ht])]
    rfl
  | cons u us ih =>
    have hcur : p.cur = u := hfaces.1
    have hu : p.cur.kind.isUnary := hcur ▸ hus u (by simp)
    rw [unaryRun, dif_pos hu, ih (fun v hv => hus v (List.mem_cons_of_mem _ hv)) hfaces.2]
    simp [hcur, forward_succ]

theorem operand_eq_tree {o : Operand} (hwf : o.WellFormed) (hfaces : p.Faces o.tokens) :
    p.operand = (.ok o.tree, p.follow o.moves) := by
  have hrun := unaryRun_eq hwf.1 (Atom.isUnary_token hwf.2) hfaces
  have hlast := ((p.faces_append _ _).mp hfaces).2
  simp only [operand, hrun]
  rw [atom_eq_tree hwf.2 hlast.1, Step.map_ok, Operand.moves, follow_append, follow_replicate]
  rfl

theorem climb_stop {left : Option Node} (h : ¬ p.peek.kind.Extends rank) :
    p.climb rank left = (.ok left, p) := by
  rw [climb_eq]
  cases hlevel : p.peek.kind.infixLevel? with
  | none => rfl
  | some level =>
    have hle : ¬ rank < level.rank := by
      simpa [TokenKind.Extends, TokenKind.isInfix, TokenKind.rank, hlevel] using h
    simp [hle]

theorem climb_step {left : Option Node} (h : p.peek.kind.Extends rank) :
    p.climb rank left =
      (p.advance.advance.expression p.peek.kind.rank).andThen fun right q =>
        q.climb rank (some (.infixOp p.peek p.peek.literal left right)) := by
  obtain ⟨hop, hlt⟩ := h
  rw [climb_eq]
  cases hlevel : p.peek.kind.infixLevel? with
  | none => simp [TokenKind.isInfix, hlevel] at hop
  | some level =>
    have hrank : p.peek.kind.rank = level.rank := by simp [TokenKind.rank, hlevel]
    rw [hrank] at hlt ⊢
    simp [hlt]

/-! ## Reading a run -/

/-- The links stand behind the current token, and what follows does not go on with them. -/
structure FacesLinks (p : Parser σ) (rank : Int) (xs : List Link) : Prop where
  wellFormed : ∀ x ∈ xs, x.WellFormed
  above : ∀ x ∈ xs, rank < x.1.kind.rank
  faces : p.advance.Faces (xs.flatMap Link.tokens)
  ends : ¬ (p.ahead ((xs.flatMap Link.tokens).length + 1)).kind.Extends rank

/-- The run stands in front of the parser, and what follows does not go on with it. -/
structure FacesRun (p : Parser σ) (rank : Int) (w : Run) : Prop where
  wellFormed : w.WellFormed
  above : w.Above rank
  faces : p.Faces w.tokens
  ends : w.EndsBefore rank (p.ahead w.tokens.length)

/-- Behind its first operand a run is the links that remain. -/
theorem FacesRun.links {w : Run} (h : p.FacesRun rank w) (hbare : w.first.bare = false) :
    (p.follow w.first.moves).FacesLinks rank w.rest where
  wellFormed := h.wellFormed.2.2
  above := h.above
  faces := by
    rw [faces_advance_follow, Operand.advances_moves, ← Operand.length_tokens]
    exact ((faces_append _ _ _).mp h.faces).2
  ends := by
    have hends := h.ends.resolve_left (by simp [hbare])
    rw [Run.tokens, List.length_append, Operand.length_tokens] at hends
    rw [ahead_follow, Operand.advances_moves]
    rwa [Nat.add_right_comm, Nat.add_assoc] at hends

/-- The right operand of a first link is a run in front of the parser that stands on it. -/
theorem FacesLinks.right {x : Link} {xs : List Link} (h : p.FacesLinks rank (x :: xs)) :
    p.advance.advance.FacesRun x.1.kind.rank (.ofLink x xs) where
  wellFormed := by
    refine ⟨(h.wellFormed x (by simp)).2, fun hbare => ?_, fun y hy => h.wellFormed y ?_⟩
    · have hbare : x.2.bare = true := hbare
      simp [Run.ofLink, attached, hbare]
    · rw [List.mem_cons, ← attached_append_leftover x xs]
      exact Or.inr (List.mem_append_left _ hy)
  above y hy := lt_of_mem_attached hy
  faces := by
    have hfaces := h.faces
    rw [Run.flatMap_tokens_cons] at hfaces
    exact ((faces_append _ _ _).mp hfaces.2).1
  ends := by
    by_cases hbare : x.2.bare = true
    · exact Or.inl hbare
    · right
      rw [ahead_advance, ahead_advance]
      cases hleftover : leftover x xs with
      | nil =>
        have hends := h.ends
        rw [Run.flatMap_tokens_cons, hleftover, List.flatMap_nil, List.append_nil,
          List.length_cons] at hends
        exact fun hext => hends (hext.of_le (Int.le_of_lt (h.above x (by simp))))
      | cons y ys =>
        have hfaces := h.faces
        rw [Run.flatMap_tokens_cons, hleftover, faces_cons] at hfaces
        have hy := Faces.ahead_length (t := y.1) hfaces.2
        rw [ahead_advance, ahead_advance] at hy
        rw [hy]
        exact fun hext => not_lt_head_leftover (by simpa using hbare) hleftover hext.2

/-- The links that the right operand leaves over stand behind it. -/
theorem FacesLinks.remaining {x : Link} {xs : List Link} (h : p.FacesLinks rank (x :: xs)) :
    (p.advance.advance.follow (Run.ofLink x xs).moves).FacesLinks rank (leftover x xs) where
  wellFormed y hy := by
    apply h.wellFormed y
    rw [List.mem_cons, ← attached_append_leftover x xs]
    exact Or.inr (List.mem_append_right _ hy)
  above y hy := by
    apply h.above y
    rw [List.mem_cons, ← attached_append_leftover x xs]
    exact Or.inr (List.mem_append_right _ hy)
  faces := by
    have hfaces := h.faces
    rw [Run.flatMap_tokens_cons] at hfaces
    rw [faces_advance_follow, Run.advances_moves]
    exact ((faces_append _ _ _).mp hfaces.2).2
  ends := by
    have hends := h.ends
    rw [Run.flatMap_tokens_cons, List.length_cons, List.length_append,
      ← Run.advances_moves] at hends
    rw [ahead_follow, ahead_advance, ahead_advance]
    rwa [← Nat.add_assoc, Nat.add_right_comm (Move.advances _)]

/-- An expression is what the climb makes of its first operand. -/
theorem expression_eq_of_climb {w : Run} (h : p.FacesRun rank w)
    (hclimb : w.first.bare = false →
      (p.follow w.first.moves).climb rank w.first.tree =
        (.ok w.tree, (p.follow w.first.moves).follow (w.rest.flatMap Link.moves))) :
    p.expression rank = (.ok w.tree, p.follow w.moves) := by
  have hfaces := ((faces_append _ _ _).mp h.faces).1
  have hhead := hfaces.cur_eq w.first.head?_tokens
  have hrule := Operand.operandRule?_head h.wellFormed.1
  rw [expression_eq, hhead, operand_eq_tree h.wellFormed.1 hfaces]
  cases hbare : w.first.bare with
  | true =>
    have hrest := h.wellFormed.2.1 hbare
    obtain ⟨t, ht⟩ := Operand.bare_iff.mp hbare
    rw [hrule.mpr hbare]
    simp [Run.tree, Run.moves, hrest, ht, Operand.moves, Operand.tree, Operand.head, Atom.token,
      Atom.diagnostics, Atom.tree, wrap, Node.wrap]
  | false =>
    rw [Run.moves, follow_append, ← hclimb hbare]
    split
    · rename_i hnone
      rw [hrule.mp hnone] at hbare
      cases hbare
    · rfl

/-- The climb reads the links in front of it and groups them. -/
theorem climb_eq_group {left : Option Node} {xs : List Link} (h : p.FacesLinks rank xs) :
    p.climb rank left = (.ok (group left xs), p.follow (xs.flatMap Link.moves)) := by
  induction xs using group_induct generalizing p rank left with
  | nil =>
    rw [climb_stop h.ends]
    simp
  | cons x xs ihattached ihleftover =>
    have hpeek : p.peek = x.1 := h.faces.1
    have hextends : p.peek.kind.Extends rank := by
      rw [hpeek]
      exact ⟨(h.wellFormed x (by simp)).1, h.above x (by simp)⟩
    have hright := expression_eq_of_climb h.right fun hbare => ihattached (h.right.links hbare)
    rw [climb_step hextends, hpeek, hright, Step.andThen_ok, ihleftover h.remaining,
      Run.group_cons_eq, Run.flatMap_moves_cons, follow_advance, follow_advance, follow_append]

/-- In front of a run the parser of expressions answers its tree and makes its moves. -/
theorem expression_eq_tree {w : Run} (h : p.FacesRun rank w) :
    p.expression rank = (.ok w.tree, p.follow w.moves) :=
  expression_eq_of_climb h fun hbare => climb_eq_group (h.links hbare)

/-! ## Passing tokens -/

/-- The moves pass the tokens, and report the bad integers among them. -/
structure Passes (p : Parser σ) (ms : List Move) (ts : List Token) : Prop where
  faces : p.Faces ts
  advances : Move.advances ms = ts.length
  reports : Reports ts (Move.diagnostics ms)

namespace Passes

variable {ms ns : List Move} {ts us : List Token}

theorem nil : p.Passes [] [] := ⟨trivial, rfl, .nil⟩

theorem replicate (hfaces : p.Faces ts) (hreports : Reports ts []) :
    p.Passes (List.replicate ts.length .advance) ts :=
  ⟨hfaces, Move.advances_replicate _, by rwa [Move.diagnostics_replicate]⟩

theorem append (h : p.Passes ms ts) (h' : (p.follow ms).Passes ns us) :
    p.Passes (ms ++ ns) (ts ++ us) where
  faces := by
    rw [faces_append, ← h.advances, ← faces_follow]
    exact ⟨h.faces, h'.faces⟩
  advances := by rw [Move.advances_append, h.advances, h'.advances, List.length_append]
  reports := by
    rw [Move.diagnostics_append]
    exact h.reports.append h'.reports

end Passes

theorem passes_operand {o : Operand} (hwf : o.WellFormed) (hfaces : p.Faces o.tokens) :
    p.Passes (o.moves ++ [.advance]) o.tokens :=
  ⟨hfaces, by simp [Operand.length_tokens], by simpa using o.reports hwf⟩

theorem FacesRun.passes {w : Run} (h : p.FacesRun rank w) :
    p.Passes (w.moves ++ [.advance]) w.tokens :=
  ⟨h.faces, by simp [← w.advances_moves], by simpa using w.reports h.wellFormed⟩

/-- The step broke off in front of an integer with too many digits, and passed all that stands
before it. -/
def Overlong {α : Type} (p : Parser σ) (s : Step σ α) : Prop :=
  ∃ ms ts e, s = (.error (.overlong e), p.follow ms) ∧ p.Passes ms ts ∧
    (p.follow ms).cur.kind = .int ∧ readInt64 (p.follow ms).cur.literal = .error e

namespace Overlong

variable {α β : Type} {s : Step σ α}

theorem andThen (h : p.Overlong s) (f : α → Parser σ → Step σ β) : p.Overlong (s.andThen f) := by
  obtain ⟨ms, ts, e, rfl, hrest⟩ := h
  exact ⟨ms, ts, e, rfl, hrest⟩

theorem map (h : p.Overlong s) (f : α → β) : p.Overlong (s.map f) := by
  obtain ⟨ms, ts, e, rfl, hrest⟩ := h
  exact ⟨ms, ts, e, rfl, hrest⟩

end Overlong

/-- Where no token in sight has too many digits, no step breaks off. -/
theorem not_overlong {α : Type} {s : Step σ α} (h : ∀ n, (p.ahead n).WithinLimit) :
    ¬ p.Overlong s := by
  rintro ⟨ms, -, e, -, -, hkind, hread⟩
  have hlimit := h (Move.advances ms + 0)
  rw [← ahead_follow, ahead_zero] at hlimit
  exact hlimit.readInt64_ne_error hkind e hread

namespace Passes

variable {α : Type} {s : Step σ α} {ms : List Move} {ts : List Token}

theorem overlong (h : p.Passes ms ts) (hover : (p.follow ms).Overlong s) : p.Overlong s := by
  obtain ⟨ns, us, e, hs, hbehind, hkind, hread⟩ := hover
  rw [← follow_append] at hs hkind hread
  exact ⟨_, _, e, hs, h.append hbehind, hkind, hread⟩

theorem overlong_advance (h : p.Passes (ms ++ [.advance]) ts)
    (hover : (p.follow ms).advance.Overlong s) : p.Overlong s := by
  apply h.overlong
  rw [follow_append]
  exact hover

end Passes

/-! ## There is always a run -/

theorem exists_unaryRun (p : Parser σ) :
    ∃ us, (∀ u ∈ us, u.kind.isUnary) ∧ p.Faces us ∧ (p.forward us.length).cur.kind.isUnary = false ∧
      p.unaryRun = (us, p.forward us.length) := by
  fun_induction unaryRun p with
  | case1 p h run q heq ih =>
    obtain ⟨us, hus, hfaces, hend, hrun⟩ := ih
    obtain ⟨rfl, rfl⟩ := Prod.mk.inj (heq.symm.trans hrun)
    exact ⟨p.cur :: run, by simpa using ⟨h, hus⟩, ⟨rfl, hfaces⟩, hend, rfl⟩
  | case2 p h => exact ⟨[], by simp, trivial, by simpa using h, rfl⟩

theorem atom_cases (hunary : p.cur.kind.isUnary = false) :
    (∃ a : Atom, a.WellFormed ∧ a.token = p.cur) ∨ p.Overlong p.atom := by
  cases hrule : p.cur.kind.operandRule? with
  | none => exact Or.inl ⟨.missing p.cur, hrule, rfl⟩
  | some rule =>
    cases hkind : p.cur.kind <;>
      simp [hkind, TokenKind.operandRule?, TokenKind.isUnary] at hrule hunary
    case ident => exact Or.inl ⟨.leaf (.identifier p.cur), hkind, rfl⟩
    case int =>
      cases hread : readInt64 p.cur.literal with
      | error e =>
        exact Or.inr ⟨[], [], e, by simp [atom, hkind, integer, hread], .nil, hkind, hread⟩
      | ok v =>
        cases v with
        | none => exact Or.inl ⟨.badInteger p.cur, ⟨hkind, hread⟩, rfl⟩
        | some v => exact Or.inl ⟨.leaf (.integer p.cur v), ⟨hkind, hread⟩, rfl⟩

theorem operand_cases (p : Parser σ) :
    (∃ o : Operand, o.WellFormed ∧ p.Faces o.tokens) ∨ p.Overlong p.operand := by
  obtain ⟨us, hus, hfaces, hend, hrun⟩ := p.exists_unaryRun
  rcases atom_cases hend with ⟨a, hwf, htoken⟩ | hover
  · left
    refine ⟨⟨us, a⟩, ⟨hus, hwf⟩, ?_⟩
    rw [Operand.tokens, faces_append]
    exact ⟨hfaces, htoken.symm, trivial⟩
  · right
    rw [← follow_replicate] at hover
    rw [operand, hrun, ← follow_replicate]
    exact (Passes.replicate hfaces (reports_of_isUnary hus)).overlong (hover.map _)

/-- A right operand with its links, and the links behind it, are the links behind the operator. -/
theorem FacesLinks.cons {w : Run} {xs : List Link} (hext : p.peek.kind.Extends rank)
    (hright : p.advance.advance.FacesRun p.peek.kind.rank w)
    (hxs : (p.advance.advance.follow w.moves).FacesLinks rank xs) :
    p.FacesLinks rank ((p.peek, w.first) :: (w.rest ++ xs)) where
  wellFormed y hy := by
    rcases List.mem_cons.mp hy with rfl | hy
    · exact ⟨hext.1, hright.wellFormed.1⟩
    · rcases List.mem_append.mp hy with hy | hy
      · exact hright.wellFormed.2.2 y hy
      · exact hxs.wellFormed y hy
  above y hy := by
    rcases List.mem_cons.mp hy with rfl | hy
    · exact hext.2
    · rcases List.mem_append.mp hy with hy | hy
      · exact Int.lt_trans hext.2 (hright.above y hy)
      · exact hxs.above y hy
  faces := by
    have hfaces := hxs.faces
    rw [faces_advance_follow, Run.advances_moves] at hfaces
    rw [List.flatMap_cons, List.flatMap_append, Link.tokens, List.cons_append, faces_cons,
      ← List.append_assoc]
    exact ⟨rfl, (faces_append _ _ _).mpr ⟨hright.faces, hfaces⟩⟩
  ends := by
    have hends := hxs.ends
    rw [ahead_follow, ahead_advance, ahead_advance] at hends
    rw [List.flatMap_cons, List.flatMap_append, Link.tokens, List.cons_append, List.length_cons,
      ← List.append_assoc, List.length_append]
    have hadvances := w.advances_moves
    rw [Run.tokens] at hadvances
    rw [← hadvances]
    rwa [← Nat.add_assoc, Nat.add_right_comm (Move.advances _)] at hends

theorem FacesRun.of_links {o : Operand} {xs : List Link} (hwf : o.WellFormed)
    (hfaces : p.Faces o.tokens) (hbare : o.bare = false)
    (hxs : (p.follow o.moves).FacesLinks rank xs) : p.FacesRun rank ⟨o, xs⟩ where
  wellFormed := ⟨hwf, fun h => by simp [hbare] at h, hxs.wellFormed⟩
  above := hxs.above
  faces := by
    have hrest := hxs.faces
    rw [faces_advance_follow, Operand.advances_moves, ← Operand.length_tokens] at hrest
    exact (faces_append _ _ _).mpr ⟨hfaces, hrest⟩
  ends := by
    have hends := hxs.ends
    rw [ahead_follow, Operand.advances_moves] at hends
    right
    rw [Run.tokens, List.length_append, Operand.length_tokens]
    rwa [Nat.add_right_comm, Nat.add_assoc]

theorem FacesRun.of_bare {o : Operand} (hwf : o.WellFormed) (hfaces : p.Faces o.tokens)
    (hbare : o.bare = true) : p.FacesRun rank ⟨o, []⟩ where
  wellFormed := ⟨hwf, fun _ => rfl, by simp⟩
  above := by simp [Run.Above]
  faces := by simpa [Run.tokens] using hfaces
  ends := Or.inl hbare

theorem expression_cases_of_climb (p : Parser σ) (rank : Int)
    (hclimb : ∀ q : Parser σ, q.weight ≤ p.weight → ∀ left,
      (∃ xs, q.FacesLinks rank xs) ∨ q.advance.Overlong (q.climb rank left)) :
    (∃ w, p.FacesRun rank w) ∨ p.Overlong (p.expression rank) := by
  cases hrule : p.cur.kind.operandRule? with
  | none =>
    have hwf : (⟨[], .missing p.cur⟩ : Operand).WellFormed := ⟨by simp, hrule⟩
    exact Or.inl ⟨_, .of_bare hwf ⟨rfl, trivial⟩ rfl⟩
  | some rule =>
    have hexpression : p.expression rank = p.operand.andThen fun left q => q.climb rank left := by
      rw [expression_eq, hrule]
    rw [hexpression]
    rcases p.operand_cases with ⟨o, hwf, hfaces⟩ | hover
    · have hoperand := operand_eq_tree hwf hfaces
      have hbare : o.bare = false := by
        rw [← Bool.not_eq_true, ← Operand.operandRule?_head hwf, ← hfaces.cur_eq o.head?_tokens,
          hrule]
        simp
      have hweight : (p.follow o.moves).weight ≤ p.weight := by
        simpa [hoperand] using p.operand_weight_le
      rcases hclimb _ hweight o.tree with ⟨xs, hxs⟩ | hover
      · exact Or.inl ⟨_, .of_links hwf hfaces hbare hxs⟩
      · rw [hoperand, Step.andThen_ok]
        exact Or.inr ((passes_operand hwf hfaces).overlong_advance hover)
    · exact Or.inr (hover.andThen _)

/-- Unless it meets an integer that is too long, a climb has links in front of it. -/
theorem climb_cases (p : Parser σ) (rank : Int) (left : Option Node) :
    (∃ xs, p.FacesLinks rank xs) ∨ p.advance.Overlong (p.climb rank left) := by
  induction h : p.weight using Nat.strongRecOn generalizing p rank left with
  | ind n ih =>
    subst h
    by_cases hext : p.peek.kind.Extends rank
    · have hlt : p.advance.advance.weight < p.weight := by
        obtain ⟨level, hlevel⟩ := Option.isSome_iff_exists.mp hext.1
        exact weight_two_advances hlevel
      have hright := p.advance.advance.expression_cases_of_climb p.peek.kind.rank
        fun q hq left => ih _ (Nat.lt_of_le_of_lt hq hlt) q _ left rfl
      have hoperator : p.advance.Passes [.advance] [p.peek] :=
        ⟨⟨rfl, trivial⟩, rfl, reports_of_isInfix hext.1⟩
      rw [climb_step hext]
      rcases hright with ⟨w, hw⟩ | hover
      · have hexpression := expression_eq_tree hw
        have hweight : (p.advance.advance.follow w.moves).weight < p.weight := by
          have hle := p.advance.advance.expression_weight_le p.peek.kind.rank
          rw [hexpression] at hle
          exact Nat.lt_of_le_of_lt hle hlt
        rw [hexpression, Step.andThen_ok]
        rcases ih _ hweight _ rank _ rfl with ⟨xs, hxs⟩ | hover
        · exact Or.inl ⟨_, .cons hext hw hxs⟩
        · exact Or.inr (hoperator.overlong (hw.passes.overlong_advance hover))
      · exact Or.inr (hoperator.overlong (hover.andThen _))
    · exact Or.inl ⟨[], by simp, by simp, trivial, hext⟩

/-- Unless it meets an integer that is too long, the parser of expressions has a run in front. -/
theorem expression_cases (p : Parser σ) (rank : Int) :
    (∃ w, p.FacesRun rank w) ∨ p.Overlong (p.expression rank) :=
  p.expression_cases_of_climb rank fun q _ left => q.climb_cases rank left

end MonkeySyntax.Parser
