import MonkeySyntax.Proofs.Recovery.Clean
import MonkeySyntax.Proofs.Recovery.Ending
import MonkeySyntax.Proofs.Rendering
import MonkeySyntax.Proofs.Spelling

/-!
# Reading a written tree again

The parentheses of a written tree are redundant: without them the parser finds the same tree, since
the tokens are those of the run that the tree was built from. Statements with a semicolon may stand
one behind the other; only the last may be without one. Hence trees with the same text are the same.
-/

namespace MonkeySyntax

/-- Let and return statements are written with a semicolon at their end. -/
def Node.isClosed : Node → Bool
  | letStmt .. | returnStmt .. => true
  | _ => false

/-- The tokens of a text without parentheses and without the end of input. -/
def unparenthesised (text : String) : List Token :=
  (tokenize text).dropLast.filter fun t => !t.kind.isParen

namespace Grammar.Clause

@[simp] theorem isClosed_tree (c : Clause) : c.tree.isClosed = c.isClosed := by
  cases c <;> rfl

theorem wellFormed_written {c : Clause} (h : c.WellFormed) : c.written.WellFormed := by
  refine ⟨h, ?_⟩
  intro t ht
  cases c with
  | letClause | returnClause =>
    obtain rfl := Option.some.inj ht
    rfl
  | expression => cases ht

end Grammar.Clause

namespace Recovery

open Grammar (Clause)

theorem Statement.exists_map_ofGrammar {ss : List Statement}
    (hclean : Program.diagnostics ss = []) :
    ∃ gs : List Grammar.Statement, ss = gs.map Statement.ofGrammar := by
  induction ss with
  | nil => exact ⟨[], rfl⟩
  | cons s ss ih =>
    obtain ⟨hs, hss⟩ := List.append_eq_nil_iff.mp hclean
    obtain ⟨g, rfl⟩ := s.exists_ofGrammar hs
    obtain ⟨gs, rfl⟩ := ih hss
    exact ⟨g :: gs, rfl⟩

namespace Program

theorem tokens_map_ofGrammar (gs : List Grammar.Statement) :
    tokens (gs.map Statement.ofGrammar) = gs.flatMap Grammar.Statement.tokens := by
  rw [tokens, List.flatMap_map]
  simp only [Statement.tokens_ofGrammar]

theorem trees_map_ofGrammar (gs : List Grammar.Statement) :
    trees (gs.map Statement.ofGrammar) = gs.map fun g => g.clause.tree := by
  rw [trees, List.filterMap_map, ← List.filterMap_eq_map]
  congr 1
  funext g
  exact Statement.tree_ofGrammar g

theorem diagnostics_map_ofGrammar (gs : List Grammar.Statement) :
    diagnostics (gs.map Statement.ofGrammar) = [] := by
  rw [diagnostics, List.flatMap_map]
  simp [Statement.diagnostics_ofGrammar]

end Program

/-- Each statement that is written ends where the next one starts. -/
theorem chained_written {cs : List Clause} (h : ∀ c ∈ cs, c.WellFormed)
    (hclosed : ∀ c ∈ cs.dropLast, c.isClosed) :
    Program.Chained ((cs.map Clause.written).map Statement.ofGrammar) .endOfInput := by
  induction cs with
  | nil => trivial
  | cons c cs ih =>
    obtain ⟨hc, hcs⟩ := List.forall_mem_cons.mp h
    have hwf : (Statement.ofGrammar c.written).WellFormed :=
      Statement.wellFormed_ofGrammar.mpr (Grammar.Clause.wellFormed_written hc)
    have hclean := Statement.diagnostics_ofGrammar c.written
    have heof := (Statement.head_of_clean hwf hclean).1
    cases cs with
    | nil =>
      refine ⟨hwf, heof, ?_, trivial⟩
      exact Statement.endsBefore_of_clean hwf hclean (Or.inr (by decide))
    | cons d ds =>
      rw [List.dropLast_cons_cons] at hclosed
      obtain ⟨hcClosed, hrest⟩ := List.forall_mem_cons.mp hclosed
      refine ⟨hwf, heof, ?_, ih hcs hrest⟩
      cases c with
      | letClause | returnClause => exact fun hnone => nomatch hnone
      | expression => cases hcClosed

theorem reads_written {cs : List Clause} (h : ∀ c ∈ cs, c.WellFormed)
    (hclosed : ∀ c ∈ cs.dropLast, c.isClosed) :
    Reads ((cs.map Clause.written).flatMap Grammar.Statement.tokens)
      ((cs.map Clause.written).map Statement.ofGrammar) where
  chained := chained_written h hclosed
  tokens := Or.inl (Program.tokens_map_ofGrammar _)

end Recovery

namespace Parser

open Recovery Lexing

open Grammar (Clause)

/-- The symbols of a text are spelled by its tokens without parentheses and by the end of input. -/
theorem symbols_eq_append (text : String) :
    symbols text.toList = (unparenthesised text).map Token.spelling ++ [(.eof, "")] := by
  rw [symbols, spellings, String.ofList_toList, spellings_eq_append, List.filter_append,
    List.filter_map]
  rfl

/-- Written statements are read again as they were, up to positions. -/
theorem parse_textAll {cs : List Clause} {text : String} (h : ∀ c ∈ cs, c.WellFormed)
    (hlexical : ∀ c ∈ cs, ∀ t ∈ c.tokens, t.Lexical) (hclosed : ∀ c ∈ cs.dropLast, c.isClosed)
    (htext : text = Node.textAll (cs.map Clause.tree)) :
    ∃ ns q, parse (TokenQueue.ofList (unparenthesised text)) = (.ok (.program ns), q) ∧
      q.diagnostics = [] ∧ ns.map Node.unplaced = (cs.map Clause.tree).map Node.unplaced := by
  have hsymbols := Grammar.symbols_textAll h hlexical hclosed
  rw [← htext, symbols_eq_append] at hsymbols
  have hsame := sameOutcome_ofList (List.append_cancel_right hsymbols)
  obtain ⟨p, hp, hclean⟩ := parse_of_reads (reads_written h hclosed)
  obtain ⟨m, q, hparse, hunplaced, hdiagnostics⟩ := hsame.exists_ok hp
  obtain ⟨ss, -, rfl, -⟩ := facesProgram_of_parse hparse
  have htrees : ((cs.map Clause.written).map fun g => g.clause.tree) = cs.map Clause.tree :=
    List.map_map
  have hmap := Node.program.inj hunplaced
  rw [Node.mapAll_eq_map, Node.mapAll_eq_map, Program.trees_map_ofGrammar, htrees] at hmap
  refine ⟨_, q, hparse, ?_, hmap⟩
  rw [hdiagnostics, hclean, Program.diagnostics_map_ofGrammar]

/-- The statements of a text without diagnostics are clauses whose tokens can be written out. -/
theorem exists_clauses {source : String} {n : Node} {p : Parser Lexer}
    (hparse : parse (Lexer.ofString source) = (.ok n, p)) (hclean : p.diagnostics = []) :
    ∃ cs : List Clause, n = .program (cs.map Clause.tree) ∧ (∀ c ∈ cs, c.WellFormed) ∧
      ∀ c ∈ cs, ∀ t ∈ c.tokens, t.Lexical := by
  obtain ⟨ss, hss, rfl, hdiagnostics⟩ := facesProgram_of_parse hparse
  rw [hclean] at hdiagnostics
  have hwf := Program.wellFormed_of_chained hss.chained
  have heof : ∀ t ∈ Program.tokens ss, t.kind ≠ .eof := by
    have hcount := Program.countP_eof hwf
    rw [← hdiagnostics, List.count_nil, List.countP_eq_zero] at hcount
    simpa using hcount
  have hlexical : ∀ t ∈ Program.tokens ss, t.Lexical := by
    intro t ht
    obtain ⟨es, htokens, hes⟩ := hss.faces.eq_take_append (Lexer.ofString source).delivers
    have hne := heof t ht
    rw [htokens] at ht
    rcases List.mem_append.mp ht with hmem | hmem
    · exact lexical_of_mem_tokenize (List.mem_of_mem_take hmem) hne
    · exact absurd (hes t hmem) hne
  obtain ⟨gs, rfl⟩ := Statement.exists_map_ofGrammar hdiagnostics.symm
  rw [Program.tokens_map_ofGrammar] at hlexical
  refine ⟨gs.map Grammar.Statement.clause, ?_, ?_, ?_⟩
  · rw [Program.trees_map_ofGrammar, List.map_map]
    rfl
  · refine List.forall_mem_map.mpr fun g hg => ?_
    exact (Statement.wellFormed_ofGrammar.mp (hwf _ (List.mem_map_of_mem hg))).1
  · refine List.forall_mem_map.mpr fun g hg t ht => ?_
    exact hlexical t (List.mem_flatMap.mpr ⟨g, hg, List.mem_append_left _ ht⟩)

/-- What is written for one statement is read again as that statement. -/
theorem parse_text_tree {c : Clause} (h : c.WellFormed) (hlexical : ∀ t ∈ c.tokens, t.Lexical) :
    ∃ st q, parse (TokenQueue.ofList (unparenthesised c.tree.text)) = (.ok (.program [st]), q) ∧
      q.diagnostics = [] ∧ st.unplaced = c.tree.unplaced := by
  have htext : c.tree.text = Node.textAll ([c].map Clause.tree) := by simp [Node.textAll]
  obtain ⟨ns, q, hparse, hclean, hmap⟩ :=
    parse_textAll (by simpa using h) (by simpa using hlexical) (by simp) htext
  obtain ⟨st, rfl, hst⟩ := List.map_eq_singleton_iff.mp hmap
  exact ⟨st, q, hparse, hclean, hst⟩

/-- The text of a statement without diagnostics, its parentheses left out, is read as the statement,
and the text of a program as the program if each statement but the last is written with a semicolon.
Hence statements with the same text are the same. -/
theorem text_determines_tree {source : String} {n : Node} {p : Parser Lexer}
    (hparse : parse (Lexer.ofString source) = (.ok n, p)) (hclean : p.diagnostics = []) :
    (∀ st ∈ n.statements, ∃ st' q,
      parse (TokenQueue.ofList (unparenthesised st.text)) = (.ok (.program [st']), q) ∧
        q.diagnostics = [] ∧ st'.sameTree st) ∧
    ((∀ st ∈ n.statements.dropLast, st.isClosed) → ∃ m q,
      parse (TokenQueue.ofList (unparenthesised n.text)) = (.ok m, q) ∧
        q.diagnostics = [] ∧ m.sameTree n) ∧
    ∀ other m q, parse (Lexer.ofString other) = (.ok m, q) → q.diagnostics = [] →
      ∀ st ∈ n.statements, ∀ st' ∈ m.statements, st.text = st'.text → st.sameTree st' := by
  obtain ⟨cs, rfl, hwf, hlexical⟩ := exists_clauses hparse hclean
  refine ⟨?_, ?_, ?_⟩
  · intro st hst
    obtain ⟨c, hc, rfl⟩ := List.mem_map.mp hst
    obtain ⟨st', q, hst', hq, hunplaced⟩ := parse_text_tree (hwf c hc) (hlexical c hc)
    exact ⟨st', q, hst', hq, Node.sameTree_of_unplaced hunplaced⟩
  · intro hclosed
    have hclauses : ∀ c ∈ cs.dropLast, c.isClosed := by
      rw [Node.statements_program, ← List.map_dropLast] at hclosed
      intro c hc
      rw [← Grammar.Clause.isClosed_tree]
      exact hclosed _ (List.mem_map_of_mem hc)
    obtain ⟨ns, q, hns, hq, hmap⟩ := parse_textAll hwf hlexical hclauses rfl
    refine ⟨_, q, hns, hq, Node.sameTree_of_unplaced ?_⟩
    rw [Node.unplaced, Node.unplaced, Node.mapTokens, Node.mapTokens, Node.mapAll_eq_map,
      Node.mapAll_eq_map]
    exact congrArg Node.program hmap
  · intro other m q hother hq st hst st' hst' htext
    obtain ⟨ds, rfl, hwf', hlexical'⟩ := exists_clauses hother hq
    obtain ⟨c, hc, rfl⟩ := List.mem_map.mp hst
    obtain ⟨d, hd, rfl⟩ := List.mem_map.mp hst'
    obtain ⟨x, r, hx, -, hxc⟩ := parse_text_tree (hwf c hc) (hlexical c hc)
    obtain ⟨y, r', hy, -, hyd⟩ := parse_text_tree (hwf' d hd) (hlexical' d hd)
    rw [htext, hy] at hx
    have hxy : y = x := by simpa using congrArg Prod.fst hx
    rw [hxy] at hyd
    exact Node.sameTree_of_unplaced (hxc.symm.trans hyd)

/-- The text of `-a - b` is `((-a) - b)`, and its statement is found again in that. -/
theorem text_determines_tree_difference :
    ∃ n p, parse (Lexer.ofString "-a - b") = (.ok n, p) ∧ p.diagnostics = [] ∧
      n.text = "((-a) - b)" ∧ ∀ st ∈ n.statements, ∃ st' q,
        parse (TokenQueue.ofList (unparenthesised st.text)) = (.ok (.program [st']), q) ∧
          q.diagnostics = [] ∧ st'.sameTree st := by
  let minus : Token := ⟨.minus, "-", 1, 1⟩
  let a : Token := ⟨.ident, "a", 1, 2⟩
  let b : Token := ⟨.ident, "b", 1, 6⟩
  let run : Recovery.Run :=
    ⟨⟨[minus], .leaf (.identifier a)⟩, [(minus, ⟨[], .leaf (.identifier b)⟩)]⟩
  have hreads : Reads [minus, a, minus, b] [.full .plain run none] := ⟨by decide, Or.inl rfl⟩
  have htree : run.tree =
      some (.infixOp minus "-" run.first.tree (some (.identifier b "b"))) := by
    simp [run, Recovery.Run.tree, group_cons, attached, leftover]
    exact ⟨rfl, rfl⟩
  let noBlank : Gap := ⟨[], by simp⟩
  let blank : Gap := ⟨[' '], by simp [isBlank]⟩
  let sign : Lexeme := ⟨.minus, ['-'], .operator (by decide)⟩
  let layout : Layout := ⟨noBlank,
    [(sign, noBlank), (⟨.ident, ['a'], .word (by decide) (wordKind_getD _)⟩, blank), (sign, blank),
      (⟨.ident, ['b'], .word (by decide) (wordKind_getD _)⟩, noBlank)]⟩
  have hfaithful : layout.Faithful := (Pieces.faithful_iff_isChain _).mpr (by decide)
  have hspelling : (tokenize "-a - b").map Token.spelling =
      [minus, a, minus, b].map Token.spelling ++ [(.eof, "")] :=
    spellings_of_faithful (show layout.text = "-a - b".toList from rfl) hfaithful
  obtain ⟨k, hk, hkclean⟩ := parse_of_reads hreads
  obtain ⟨n, p, hparse, hunplaced, hdiagnostics⟩ := (sameOutcome_ofString hspelling).exists_ok hk
  have hclean : p.diagnostics = [] := hdiagnostics.trans hkclean
  have htrees : Program.trees [.full .plain run none] = [.exprStmt minus run.tree] := rfl
  have htext : n.text = "((-a) - b)" := by
    rw [Node.text_eq_of_unplaced hunplaced, htrees, htree]
    rfl
  obtain ⟨hstatements, -, -⟩ := text_determines_tree hparse hclean
  exact ⟨n, p, hparse, hclean, htext, hstatements⟩

end Parser

end MonkeySyntax
