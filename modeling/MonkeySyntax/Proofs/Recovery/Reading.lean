import Mathlib.Data.List.Chain
import Mathlib.Data.List.GetD
import MonkeySyntax.Proofs.Recovery.Balance
import MonkeySyntax.Proofs.Recovery.Parse

/-!
# Readings of prepared tokens

A list of tokens is read as a program whose tokens are that list. Where the tokens give out inside
an operand, one token for the end of input is read as well, and never two of them. A reading fixes
the trees and the diagnostics of a parse, and there is one unless an integer has too many digits.
-/

namespace MonkeySyntax

namespace Recovery

/-! ## The end of input inside a program -/

/-- Of two neighbouring tokens at most one is the end of input. -/
def Sparse (ts : List Token) : Prop := ts.IsChain fun t u => t.kind = .eof → u.kind ≠ .eof

namespace Sparse

variable {ts us : List Token}

theorem of_forall (h : ∀ t ∈ ts, t.kind ≠ .eof) : Sparse ts := by
  induction ts with
  | nil => exact List.isChain_nil
  | cons t ts ih =>
    have hrest := ih fun u hu => h u (List.mem_cons_of_mem _ hu)
    exact List.isChain_cons.mpr ⟨fun _ _ heof => absurd heof (h t (by simp)), hrest⟩

/-- Tokens that do not start with the end of input may stand behind any others. -/
theorem append (h : Sparse ts) (h' : Sparse us) (hhead : ∀ u ∈ us.head?, u.kind ≠ .eof) :
    Sparse (ts ++ us) :=
  List.IsChain.append h h' fun _ _ u hu _ => hhead u hu

theorem append_of_forall (h : ∀ t ∈ ts, t.kind ≠ .eof) (h' : Sparse us) : Sparse (ts ++ us) :=
  List.IsChain.append (of_forall h) h' fun t ht _ _ heof =>
    absurd heof (h t (List.mem_of_getLast? ht))

theorem not_both {i : Nat} (h : Sparse ts) (hi : i + 1 < ts.length) (heof : ts[i].kind = .eof) :
    ts[i + 1].kind ≠ .eof := List.isChain_iff_getElem.mp h i hi heof

end Sparse

theorem Operand.sparse_tokens {o : Operand} (h : o.WellFormed) : Sparse o.tokens := by
  have hkept := o.ne_of_mem_kept h TokenKind.foreign_eof.toInert
  refine .append_of_forall (fun t ht => ?_) (List.isChain_singleton _)
  exact hkept t (List.mem_append_left _ ht)

theorem sparse_flatMap_tokens {xs : List Link} (h : ∀ x ∈ xs, x.WellFormed) :
    Sparse (xs.flatMap Link.tokens) ∧
      ∀ t ∈ (xs.flatMap Link.tokens).head?, t.kind ≠ .eof := by
  induction xs with
  | nil => exact ⟨List.isChain_nil, by simp⟩
  | cons x xs ih =>
    have hwf := h x (by simp)
    obtain ⟨hrest, hhead⟩ := ih fun y hy => h y (List.mem_cons_of_mem _ hy)
    have hop : x.1.kind ≠ .eof := Link.ne_of_wellFormed hwf TokenKind.foreign_eof.toInert
    have hx : Sparse x.tokens :=
      List.isChain_cons.mpr ⟨fun _ _ heof => absurd heof hop, x.2.sparse_tokens hwf.2⟩
    exact ⟨hx.append hrest hhead, by simpa [Link.tokens] using hop⟩

theorem Run.sparse_tokens {w : Run} (h : w.WellFormed) : Sparse w.tokens := by
  obtain ⟨hrest, hhead⟩ := sparse_flatMap_tokens h.2.2
  exact .append (w.first.sparse_tokens h.1) hrest hhead

theorem Statement.sparse_tokens {s : Statement} (h : s.WellFormed) : Sparse s.tokens := by
  cases s with
  | nameless word got => exact List.isChain_singleton _
  | signless word name got =>
    refine .of_forall fun t ht => ?_
    rcases List.mem_pair.mp ht with rfl | rfl
    · simp [h.1]
    · simp [h.2.1]
  | full lead value semicolon =>
    obtain ⟨hlead, hvalue, -, hsemi⟩ := h
    have hleadTokens := lead.ne_of_mem_tokens hlead TokenKind.foreign_eof
    have hsemiTokens : ∀ t ∈ semicolon.toList, t.kind ≠ .eof := by
      intro t ht
      rw [hsemi t (by simpa using ht)]
      decide
    have hrest : Sparse (value.tokens ++ semicolon.toList) :=
      (value.sparse_tokens hvalue).append (.of_forall hsemiTokens) fun t ht =>
        hsemiTokens t (List.mem_of_head? ht)
    exact .append_of_forall hleadTokens hrest

theorem Program.sparse_tokens {ss : List Statement} {next : Token} (h : Chained ss next) :
    Sparse (tokens ss) := by
  induction ss with
  | nil => exact List.isChain_nil
  | cons s ss ih =>
    obtain ⟨hwf, -, -, hrest⟩ := h
    have hhead : ∀ t ∈ (tokens ss).head?, t.kind ≠ .eof := by
      cases ss with
      | nil => simp
      | cons r rs =>
        rw [tokens_cons, List.head?_append, r.head?_tokens]
        simpa using hrest.2.1
    exact (s.sparse_tokens hwf).append (ih hrest) hhead

/-! ## Readings -/

/-- The statements are what the tokens are read as. -/
structure Reads (ts : List Token) (ss : List Statement) : Prop where
  chained : Program.Chained ss .endOfInput
  tokens : Program.tokens ss = ts ∨ Program.tokens ss = ts ++ [.endOfInput]

namespace Reads

variable {ts : List Token} {ss : List Statement}

theorem wellFormed (h : Reads ts ss) : ∀ s ∈ ss, s.WellFormed :=
  Program.wellFormed_of_chained h.chained

/-- Whether the end of input was read shows in the diagnostics. -/
theorem length_tokens (h : Reads ts ss) (hts : ∀ t ∈ ts, t.kind ≠ .eof) :
    (Program.tokens ss).length =
      ts.length + (Program.diagnostics ss).count (.noOperand .eof) := by
  have hnone : ts.countP (·.kind = .eof) = 0 := by
    simpa [List.countP_eq_zero] using hts
  rw [← Program.countP_eof h.wellFormed]
  rcases h.tokens with heq | heq
  · rw [heq, hnone, Nat.add_zero]
  · rw [heq, List.countP_append, hnone, List.length_append]
    rfl

theorem tokens_eq (h : Reads ts ss) (hts : ∀ t ∈ ts, t.kind ≠ .eof)
    (heof : .noOperand .eof ∉ Program.diagnostics ss) : Program.tokens ss = ts := by
  have hlength := h.length_tokens hts
  rw [List.count_eq_zero.mpr heof] at hlength
  rcases h.tokens with heq | heq
  · exact heq
  · simp [heq] at hlength

/-- Behind tokens that were all read, other tokens are read as they are on their own. -/
theorem append {us : List Token} {rs : List Statement} (htokens : Program.tokens ss = ts)
    (h : Reads us rs) (hchained : Program.Chained ss (Program.head rs .endOfInput)) :
    Reads (ts ++ us) (ss ++ rs) where
  chained := Program.chained_append.mpr ⟨hchained, h.chained⟩
  tokens := by
    rw [Program.tokens_append, htokens]
    rcases h.tokens with heq | heq
    · exact Or.inl (by rw [heq])
    · exact Or.inr (by rw [heq, List.append_assoc])

end Reads

end Recovery

namespace Parser

open Recovery

variable {ts : List Token} {ss : List Statement}

theorem faces_ofSource_ofList {us : List Token} :
    (ofSource (TokenQueue.ofList ts)).Faces us ↔
      ∀ i (h : i < us.length), ts.getD i .endOfInput = us[i] := by
  simp only [faces_iff_ahead, ahead_ofSource_ofList]

theorem facesProgram_of_reads (h : Reads ts ss) :
    (ofSource (TokenQueue.ofList ts)).FacesProgram ss := by
  have hlength : ts.length ≤ (Program.tokens ss).length := by
    rcases h.tokens with heq | heq <;> simp [heq]
  have hahead :
      (ofSource (TokenQueue.ofList ts)).ahead (Program.tokens ss).length = .endOfInput := by
    rw [ahead_ofSource_ofList, List.getD_eq_default _ _ hlength]
  refine ⟨hahead ▸ h.chained, faces_ofSource_ofList.mpr fun i hi => ?_, by rw [hahead]; rfl⟩
  rcases h.tokens with heq | heq
  · simp only [heq] at hi ⊢
    exact List.getD_eq_getElem _ _ hi
  · simp only [heq, List.length_append, List.length_singleton] at hi ⊢
    rw [List.getElem_append]
    split
    · exact List.getD_eq_getElem _ _ ‹_›
    · simpa using List.getD_eq_default _ _ (by omega)

/-- At most one token is read behind the last of a queue. -/
theorem length_tokens_le (h : (ofSource (TokenQueue.ofList ts)).FacesProgram ss) :
    (Program.tokens ss).length ≤ ts.length + 1 := by
  obtain ⟨hchained, hfaces, -⟩ := h
  rw [faces_ofSource_ofList] at hfaces
  have hpast : ∀ i (hi : i < (Program.tokens ss).length), ts.length ≤ i →
      (Program.tokens ss)[i].kind = .eof := by
    intro i hi hle
    rw [← hfaces i hi, List.getD_eq_default _ _ hle]
    rfl
  by_contra hgt
  apply (Program.sparse_tokens hchained).not_both (i := ts.length) (by omega)
  · exact hpast _ _ (by omega)
  · exact hpast _ _ (by omega)

/-- Tokens without an end of input are read up to the first one behind them, or up to their last. -/
theorem reads_of_facesProgram (hts : ∀ t ∈ ts, t.kind ≠ .eof)
    (h : (ofSource (TokenQueue.ofList ts)).FacesProgram ss) : Reads ts ss := by
  have hle := length_tokens_le h
  obtain ⟨hchained, hfaces, hend⟩ := h
  rw [faces_ofSource_ofList] at hfaces
  rw [ahead_ofSource_ofList] at hchained hend
  have hge : ts.length ≤ (Program.tokens ss).length := by
    by_contra hlt
    rw [List.getD_eq_getElem _ _ (by omega)] at hend
    exact hts _ (List.getElem_mem _) hend
  rw [List.getD_eq_default _ _ hge] at hchained
  refine ⟨hchained, ?_⟩
  rcases Nat.lt_or_ge ts.length (Program.tokens ss).length with hlt | hge'
  · right
    apply List.ext_getElem (by simp; omega)
    intro i hi _
    rw [← hfaces i hi, List.getElem_append]
    split
    · exact List.getD_eq_getElem _ _ _
    · simpa using List.getD_eq_default _ _ (by omega)
  · left
    apply List.ext_getElem (by omega)
    intro i hi _
    rw [← hfaces i hi]
    exact List.getD_eq_getElem _ _ _

/-- A reading fixes what a parse answers and records. -/
theorem parse_of_reads (h : Reads ts ss) :
    ∃ p, parse (TokenQueue.ofList ts) = (.ok (.program (Program.trees ss)), p) ∧
      p.diagnostics = Program.diagnostics ss := by
  obtain ⟨p, hparse, -, -, hdiagnostics⟩ := parse_passes (facesProgram_of_reads h)
  exact ⟨p, hparse, hdiagnostics⟩

theorem eq_of_reads {n : Node} {p : Parser TokenQueue} (h : Reads ts ss)
    (hparse : parse (TokenQueue.ofList ts) = (.ok n, p)) :
    n = .program (Program.trees ss) ∧ p.diagnostics = Program.diagnostics ss := by
  obtain ⟨q, hq, hdiagnostics⟩ := parse_of_reads h
  obtain ⟨hn, rfl⟩ := Prod.mk.inj (hparse.symm.trans hq)
  exact ⟨Except.ok.inj hn, hdiagnostics⟩

theorem reads_of_parse {n : Node} {p : Parser TokenQueue} (hts : ∀ t ∈ ts, t.kind ≠ .eof)
    (h : parse (TokenQueue.ofList ts) = (.ok n, p)) : ∃ ss, Reads ts ss := by
  obtain ⟨ss, hss, -, -⟩ := facesProgram_of_parse h
  exact ⟨ss, reads_of_facesProgram hts hss⟩

theorem withinLimit_ahead_ofList (hlimit : ∀ t ∈ ts, t.WithinLimit) (n : Nat) :
    ((ofSource (TokenQueue.ofList ts)).ahead n).WithinLimit := by
  rw [ahead_ofSource_ofList]
  by_cases hlt : n < ts.length
  · rw [List.getD_eq_getElem _ _ hlt]
    exact hlimit _ (List.getElem_mem hlt)
  · rw [List.getD_eq_default _ _ (by omega)]
    exact Token.withinLimit_of_ne_int (by decide)

/-- Tokens within the limit are read as a program, wherever an end of input stands among them. -/
theorem exists_facesProgram (hlimit : ∀ t ∈ ts, t.WithinLimit) :
    ∃ ss, (ofSource (TokenQueue.ofList ts)).FacesProgram ss := by
  rcases (ofSource (TokenQueue.ofList ts)).statements_cases with hfaces | hover
  · exact hfaces
  · exact absurd hover (not_overlong (withinLimit_ahead_ofList hlimit))

theorem exists_reads (hts : ∀ t ∈ ts, t.kind ≠ .eof) (hlimit : ∀ t ∈ ts, t.WithinLimit) :
    ∃ ss, Reads ts ss := by
  obtain ⟨ss, hss⟩ := exists_facesProgram hlimit
  exact ⟨ss, reads_of_facesProgram hts hss⟩

end Parser

end MonkeySyntax
