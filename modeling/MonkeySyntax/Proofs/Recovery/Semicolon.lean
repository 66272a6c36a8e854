import MonkeySyntax.Proofs.Recovery.Reading

/-!
# A semicolon behind a program

How the reading of some tokens changes when a semicolon is put behind them. Where they gave out
inside an operand, the semicolon is taken in the place of the end of input. Otherwise it ends the
last statement, or is a statement of its own. Only in the first case can something still be attached
to the last statement, and only if that statement has an expression.
-/

namespace MonkeySyntax

/-- The expression of a statement, where it has one. -/
def Node.value? : Node → Option Node
  | letStmt _ _ value | returnStmt _ value | exprStmt _ value => value
  | _ => none

namespace Recovery

@[simp] theorem Lead.value?_tree (l : Lead) (first : Token) (value : Option Node) :
    (l.tree first value).value? = value := by
  cases l <;> rfl

/-- Puts the token in the place of an end of input. -/
def plug (s t : Token) : Token := if t.kind = .eof then s else t

theorem plug_of_ne {s t : Token} (h : t.kind ≠ .eof) : plug s t = t := if_neg h

theorem map_plug {s : Token} {ts : List Token} (h : ∀ t ∈ ts, t.kind ≠ .eof) :
    ts.map (plug s) = ts := by
  rw [List.map_congr_left fun t ht => plug_of_ne (h t ht), List.map_id']

/-! ## Filling the gap at the end -/

def Atom.fill (s : Token) : Atom → Atom
  | missing t => missing (plug s t)
  | a => a

def Operand.fill (s : Token) (o : Operand) : Operand := ⟨o.operators, o.atom.fill s⟩

def Link.fill (s : Token) (x : Link) : Link := (x.1, x.2.fill s)

def Run.fill (s : Token) (w : Run) : Run := ⟨w.first.fill s, w.rest.map (Link.fill s)⟩

def Statement.fill (s : Token) : Statement → Statement
  | full lead value semicolon => full lead (value.fill s) semicolon
  | r => r

variable {s : Token}

theorem Operand.tokens_fill {o : Operand} (h : o.WellFormed) :
    (o.fill s).tokens = o.tokens.map (plug s) := by
  have hkept := o.ne_of_mem_kept h TokenKind.foreign_eof.toInert
  obtain ⟨ts, a⟩ := o
  have hts : ts.map (plug s) = ts := map_plug fun t ht => hkept t (List.mem_append_left _ ht)
  rw [tokens, tokens, List.map_append, hts]
  congr 1
  cases a with
  | leaf l =>
    have hl := hkept l.token (List.mem_append_right _ (by simp [Atom.kept]))
    exact congrArg (fun t => [t]) (plug_of_ne hl).symm
  | badInteger t =>
    have ht : t.kind ≠ .eof := by simp [h.2.1]
    exact congrArg (fun t => [t]) (plug_of_ne ht).symm
  | missing t => rfl

theorem Operand.wellFormed_fill {o : Operand} (h : o.WellFormed) (hs : s.kind = .semicolon) :
    (o.fill s).WellFormed := by
  refine ⟨h.1, ?_⟩
  obtain ⟨ts, a⟩ := o
  cases a with
  | leaf | badInteger => exact h.2
  | missing t =>
    have ht : t.kind.operandRule? = none := h.2
    change (plug s t).kind.operandRule? = none
    unfold plug
    split
    · rw [hs]; rfl
    · exact ht

@[simp] theorem Operand.bare_fill (o : Operand) : (o.fill s).bare = o.bare := by
  obtain ⟨_ | ⟨t, ts⟩, _ | _ | _⟩ := o <;> rfl

theorem flatMap_tokens_fill {xs : List Link} (h : ∀ x ∈ xs, x.WellFormed) :
    (xs.map (Link.fill s)).flatMap Link.tokens = (xs.flatMap Link.tokens).map (plug s) := by
  induction xs with
  | nil => rfl
  | cons x xs ih =>
    have hx := h x (by simp)
    have hop := plug_of_ne (s := s) (Link.ne_of_wellFormed hx TokenKind.foreign_eof.toInert)
    have hxs := ih fun y hy => h y (List.mem_cons_of_mem _ hy)
    rw [List.map_cons, List.flatMap_cons, List.flatMap_cons, List.map_append, hxs]
    congr 1
    rw [Link.tokens, Link.tokens, List.map_cons, hop, ← x.2.tokens_fill hx.2]
    rfl

theorem Run.tokens_fill {w : Run} (h : w.WellFormed) :
    (w.fill s).tokens = w.tokens.map (plug s) := by
  rw [tokens, tokens, List.map_append, ← w.first.tokens_fill h.1, ← flatMap_tokens_fill h.2.2]
  rfl

theorem Run.wellFormed_fill {w : Run} (h : w.WellFormed) (hs : s.kind = .semicolon) :
    (w.fill s).WellFormed := by
  obtain ⟨hfirst, hbare, hrest⟩ := h
  refine ⟨w.first.wellFormed_fill hfirst hs, fun hw => ?_, ?_⟩
  · rw [fill, Operand.bare_fill] at hw
    simp [fill, hbare hw]
  · refine List.forall_mem_map.mpr fun x hx => ?_
    exact ⟨(hrest x hx).1, x.2.wellFormed_fill (hrest x hx).2 hs⟩

theorem Run.head_fill {w : Run} (h : w.WellFormed) : (w.fill s).head = plug s w.head := by
  have hhead := congrArg List.head? (w.tokens_fill (s := s) h)
  rw [head?_tokens, List.head?_map, head?_tokens] at hhead
  exact Option.some.inj hhead

namespace Statement

theorem tokens_fill {r : Statement} (h : r.WellFormed) :
    (r.fill s).tokens = r.tokens.map (plug s) := by
  cases r with
  | nameless word got => simp [fill, tokens, plug, h.1]
  | signless word name got => simp [fill, tokens, plug, h.1, h.2.1]
  | full lead value semicolon =>
    have hlead : lead.tokens.map (plug s) = lead.tokens :=
      map_plug (lead.ne_of_mem_tokens h.1 TokenKind.foreign_eof)
    have hsemi : semicolon.toList.map (plug s) = semicolon.toList := by
      refine map_plug fun t ht => ?_
      rw [h.2.2.2 t (by simpa using ht)]
      decide
    rw [tokens, List.map_append, List.map_append, hlead, hsemi, ← value.tokens_fill h.2.1]
    rfl

theorem head_fill {r : Statement} (h : r.WellFormed) (heof : r.head.kind ≠ .eof) :
    (r.fill s).head = r.head := by
  have hhead := congrArg List.head? (r.tokens_fill (s := s) h)
  rw [head?_tokens, List.head?_map, head?_tokens, Option.map_some, plug_of_ne heof] at hhead
  exact Option.some.inj hhead

theorem wellFormed_fill {r : Statement} (h : r.WellFormed) (hs : s.kind = .semicolon) :
    (r.fill s).WellFormed := by
  cases r with
  | nameless | signless => exact h
  | full lead value semicolon =>
    obtain ⟨hlead, hvalue, hplain, hsemi⟩ := h
    refine ⟨hlead, value.wellFormed_fill hvalue hs, fun heq => ?_, hsemi⟩
    rw [value.head_fill hvalue, plug]
    split
    · rw [hs]
      decide
    · exact hplain heq

theorem endsBefore_fill {r : Statement} {next : Token} :
    (r.fill s).EndsBefore next ↔ r.EndsBefore next := by
  cases r with
  | nameless | signless => rfl
  | full lead value semicolon =>
    simp only [fill, EndsBefore, Run.EndsBefore, Run.fill, Operand.bare_fill]

end Statement

namespace Program

variable {ss : List Statement} {next : Token}

theorem tokens_fill (h : ∀ r ∈ ss, r.WellFormed) :
    tokens (ss.map (Statement.fill s)) = (tokens ss).map (plug s) := by
  induction ss with
  | nil => rfl
  | cons r rs ih =>
    obtain ⟨hr, hrs⟩ := List.forall_mem_cons.mp h
    rw [List.map_cons, tokens_cons, tokens_cons, List.map_append, ih hrs, r.tokens_fill hr]

theorem chained_fill (h : Chained ss next) (hs : s.kind = .semicolon) :
    Chained (ss.map (Statement.fill s)) next := by
  induction ss with
  | nil => trivial
  | cons r rs ih =>
    obtain ⟨hr, heof, hends, hrs⟩ := h
    have hhead : head (rs.map (Statement.fill s)) next = head rs next := by
      cases rs with
      | nil => rfl
      | cons r' rs => exact r'.head_fill hrs.1 hrs.2.1
    refine ⟨r.wellFormed_fill hr hs, ?_, ?_, ih hrs⟩
    · rwa [r.head_fill hr heof]
    · rw [hhead]
      exact Statement.endsBefore_fill.mpr hends

/-- Whether statements stand in a row before a token depends on the last of them only. -/
theorem chained_concat_of_endsBefore {last : Statement} {next' : Token}
    (h : Chained (ss ++ [last]) next) (hends : last.EndsBefore next') :
    Chained (ss ++ [last]) next' := by
  obtain ⟨hss, hwf, heof, -, -⟩ := chained_append.mp h
  exact chained_append.mpr ⟨hss, hwf, heof, hends, trivial⟩

theorem getLast?_tokens_concat {last : Statement} :
    (tokens (ss ++ [last])).getLast? = last.tokens.getLast? := by
  have hlast : last.tokens.getLast? ≠ none := by
    intro hnone
    have hhead := last.head?_tokens
    rw [List.getLast?_eq_none_iff.mp hnone] at hhead
    cases hhead
  obtain ⟨t, ht⟩ := Option.ne_none_iff_exists'.mp hlast
  rw [tokens_append, tokens_cons, tokens_nil, List.append_nil, List.getLast?_append, ht,
    Option.some_or]

end Program

theorem isSome_group {left : Node} {xs : List Link} : (group (some left) xs).isSome := by
  induction xs using group_induct generalizing left with
  | nil => rw [group_nil]; rfl
  | cons x xs _ ih => rw [group_cons]; exact ih

/-- A run with a token in the place of an operand has a tree unless it is nothing but that token. -/
theorem Run.tree_eq_none_iff {w : Run} {k : TokenKind} (h : w.WellFormed)
    (hmissing : .noOperand k ∈ w.diagnostics) : w.tree = none ↔ w.first.bare := by
  obtain ⟨⟨ts, a⟩, _ | ⟨x, xs⟩⟩ := w
  · cases a with
    | leaf | badInteger => simp [diagnostics, Atom.diagnostics] at hmissing
    | missing t =>
      rw [tree, group_nil]
      cases ts with
      | nil => exact ⟨fun _ => rfl, fun _ => rfl⟩
      | cons u us => constructor <;> intro h <;> cases h
  · constructor
    · intro hnone
      have hsome := @isSome_group (.infixOp x.1 x.1.literal (Operand.tree ⟨ts, a⟩)
        (group x.2.tree (attached x xs))) (leftover x xs)
      rw [← group_cons] at hsome
      rw [tree] at hnone
      rw [hnone] at hsome
      cases hsome
    · intro hbare
      cases h.2.1 hbare

/-! ## Reading a semicolon behind the tokens -/

variable {ts : List Token} {ss : List Statement}

theorem Reads.last_of_eof (h : Reads ts ss) (hts : ∀ t ∈ ts, t.kind ≠ .eof)
    (heof : .noOperand .eof ∈ Program.diagnostics ss) :
    Program.tokens ss = ts ++ [.endOfInput] ∧
      ∃ before lead value, ss = before ++ [.full lead value none] ∧
        .noOperand .eof ∈ value.diagnostics := by
  have htokens : Program.tokens ss = ts ++ [.endOfInput] := by
    refine h.tokens.resolve_left fun heq => ?_
    have hlength := h.length_tokens hts
    have hcount := List.count_pos_iff.mpr heof
    rw [heq] at hlength
    omega
  refine ⟨htokens, ?_⟩
  rcases List.eq_nil_or_concat' ss with rfl | ⟨before, last, rfl⟩
  · cases heof
  · have hwf := h.wellFormed last (by simp)
    have hlast : last.tokens.getLast? = some .endOfInput := by
      rw [← Program.getLast?_tokens_concat, htokens, List.getLast?_concat]
    have hmissing : .noOperand .eof ∈ last.diagnostics := by
      have hcount := @Program.countP_eof [last] (by simpa using hwf)
      have hpos : 0 < last.tokens.countP (·.kind = .eof) :=
        List.countP_pos_iff.mpr ⟨_, List.mem_of_getLast? hlast, rfl⟩
      rw [Program.tokens_cons, Program.tokens_nil, List.append_nil] at hcount
      rw [hcount] at hpos
      simpa [Program.diagnostics] using List.count_pos_iff.mp hpos
    cases last with
    | nameless | signless => simp [Statement.diagnostics] at hmissing
    | full lead value semicolon =>
      cases semicolon with
      | none => exact ⟨before, lead, value, rfl, hmissing⟩
      | some t =>
        rw [Statement.tokens, ← List.append_assoc, Option.toList_some,
          List.getLast?_concat] at hlast
        obtain rfl := Option.some.inj hlast
        cases hwf.2.2.2 _ rfl

/-- The semicolon takes the place of the end of input. What the last statement was without it tells
whether something can still be attached to it. -/
theorem Reads.exists_semicolon_of_eof (h : Reads ts ss) (hts : ∀ t ∈ ts, t.kind ≠ .eof)
    (hs : s.kind = .semicolon) (heof : .noOperand .eof ∈ Program.diagnostics ss) :
    ∃ before lead value, Program.tokens (before ++ [.full lead value none]) = ts ++ [s] ∧
      Program.Chained (before ++ [.full lead value none]) .endOfInput ∧
      ∃ r, (Program.trees ss).getLast? = some r ∧ (r.value? = none ↔ value.first.bare) := by
  obtain ⟨htokens, before, lead, value, rfl, hmissing⟩ := h.last_of_eof hts heof
  have hvalue : value.WellFormed := (h.wellFormed (.full lead value none) (by simp)).2.1
  have hfill : (before ++ [Statement.full lead value none]).map (Statement.fill s) =
      before.map (Statement.fill s) ++ [.full lead (value.fill s) none] := by
    rw [List.map_append]
    rfl
  refine ⟨before.map (Statement.fill s), lead, value.fill s, ?_, ?_,
    lead.tree value.head value.tree, ?_, ?_⟩
  · rw [← hfill, Program.tokens_fill h.wellFormed, htokens, List.map_append, map_plug hts]
    rfl
  · rw [← hfill]
    exact Program.chained_fill h.chained hs
  · rw [Program.trees_append, Program.trees_cons]
    exact List.getLast?_concat
  · rw [Lead.value?_tree, value.tree_eq_none_iff hvalue hmissing, Run.fill, Operand.bare_fill]

/-- The statement that is read out of a single token that starts none. -/
def Statement.alone (s : Token) : Statement := full .plain ⟨⟨[], .missing s⟩, []⟩ none

theorem Statement.chained_alone {next : Token} (hs : s.kind = .semicolon)
    (hnext : next.kind ≠ .semicolon) : Program.Chained [alone s] next := by
  have hrule : s.kind.operandRule? = none := by rw [hs]; rfl
  have hwf : (alone s).WellFormed := by
    refine ⟨trivial, ⟨⟨by simp, hrule⟩, fun _ => rfl, by simp⟩, fun _ => ?_, by simp⟩
    change s.kind ≠ .letKw ∧ s.kind ≠ .returnKw
    rw [hs]
    decide
  refine ⟨hwf, ?_, fun _ => ⟨hnext, Or.inl rfl⟩, trivial⟩
  change s.kind ≠ .eof
  rw [hs]
  decide

/-- The statement with the semicolon behind it, as its end or as a statement of its own. -/
def Statement.terminate (s : Token) : Statement → List Statement
  | nameless word _ => [nameless word s.kind, alone s]
  | signless word name _ => [signless word name s.kind, alone s]
  | full lead value none => [full lead value (some s)]
  | full lead value (some t) => [full lead value (some t), alone s]

theorem Statement.tokens_terminate (r : Statement) :
    Program.tokens (r.terminate s) = r.tokens ++ [s] := by
  rcases r with _ | _ | ⟨lead, value, _ | t⟩ <;>
    simp [terminate, tokens, alone, Lead.tokens, Run.tokens, Operand.tokens, Atom.token]

theorem Statement.head_terminate (r : Statement) {next : Token} :
    Program.head (r.terminate s) next = r.head := by
  rcases r with _ | _ | ⟨lead, value, _ | t⟩ <;> rfl

theorem Statement.chained_terminate {r : Statement} {next : Token} (h : r.WellFormed)
    (heof : r.head.kind ≠ .eof) (hs : s.kind = .semicolon) (hnext : next.kind ≠ .semicolon) :
    Program.Chained (r.terminate s) next := by
  have halone := chained_alone hs hnext
  rcases r with ⟨word, got⟩ | ⟨word, name, got⟩ | ⟨lead, value, _ | t⟩
  · exact ⟨⟨h.1, by rw [hs]; decide⟩, heof, rfl, halone⟩
  · exact ⟨⟨h.1, h.2.1, by rw [hs]; decide⟩, heof, rfl, halone⟩
  · exact ⟨⟨h.1, h.2.1, h.2.2.1, by simpa using hs⟩, heof, (fun hnone => nomatch hnone), trivial⟩
  · exact ⟨h, heof, (fun hnone => nomatch hnone), halone⟩

/-- Where the tokens did not give out inside an operand, the semicolon ends what stands in front. -/
theorem Reads.exists_semicolon_of_tokens (h : Reads ts ss) (hs : s.kind = .semicolon)
    (htokens : Program.tokens ss = ts) :
    ∃ rs, Program.tokens rs = ts ++ [s] ∧
      ∀ next : Token, next.kind ≠ .semicolon → Program.Chained rs next := by
  rcases List.eq_nil_or_concat' ss with rfl | ⟨before, last, rfl⟩
  · refine ⟨[.alone s], ?_, fun next => Statement.chained_alone hs⟩
    rw [← htokens]
    rfl
  · obtain ⟨hbefore, hlast⟩ := Program.chained_append.mp h.chained
    refine ⟨before ++ last.terminate s, ?_, fun next hnext => ?_⟩
    · rw [Program.tokens_append, last.tokens_terminate, ← htokens]
      simp
    · refine Program.chained_append.mpr ⟨?_, last.chained_terminate hlast.1 hlast.2.1 hs hnext⟩
      rw [last.head_terminate]
      exact hbefore

end Recovery

end MonkeySyntax
