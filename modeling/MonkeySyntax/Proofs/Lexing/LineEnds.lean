import MonkeySyntax.Proofs.Lexing.Scan
import MonkeySyntax.Text.Input

/-!
# Line ends between lexemes

Making all line ends one turns blanks into blanks and leaves no gap empty that was not. Line ends
stand in gaps only, so that the text keeps its lexemes: the tokens of a text are spelled as those of
the text with its line ends made one, though they stand elsewhere.
-/

namespace MonkeySyntax

namespace Text

/-- A line feed behind the first part might belong to a carriage return at its end. -/
theorem unifyLineEnds_append {cs next : List Char} (h : next.head? ≠ some '\n') :
    unifyLineEnds (cs ++ next) = unifyLineEnds cs ++ unifyLineEnds next := by
  fun_induction unifyLineEnds cs with
  | case1 cs ih => simp [unifyLineEnds, ih]
  | case2 cs hne ih =>
    rw [List.cons_append, unifyLineEnds, ih, List.cons_append]
    rintro cs' hcs
    cases cs with
    | nil => simp [show next = '\n' :: cs' from hcs] at h
    | cons c cs => exact hne cs (by rw [(List.cons.inj hcs).1])
  | case3 c cs hne hne' ih =>
    rw [List.cons_append, unifyLineEnds, ih, List.cons_append]
    · exact fun cs' hc hcs => hne' hc
    · exact hne'
  | case4 => rfl

theorem unifyLineEnds_append_of_notMem {cs : List Char} (h : '\r' ∉ cs) (next : List Char) :
    unifyLineEnds (cs ++ next) = cs ++ unifyLineEnds next := by
  induction cs with
  | nil => rfl
  | cons c cs ih =>
    obtain ⟨hc, hcs⟩ := not_or.mp (mt List.mem_cons.mpr h)
    rw [List.cons_append, unifyLineEnds, ih hcs, List.cons_append]
    · exact fun _ hc' => absurd hc'.symm hc
    · exact fun hc' => absurd hc'.symm hc

theorem unifyLineEnds_eq_nil_iff {cs : List Char} : unifyLineEnds cs = [] ↔ cs = [] := by
  fun_cases unifyLineEnds cs <;> simp

theorem isBlank_of_mem_unifyLineEnds {cs : List Char} (h : ∀ c ∈ cs, isBlank c) :
    ∀ c ∈ unifyLineEnds cs, isBlank c := by
  fun_induction unifyLineEnds cs <;> simp_all [isBlank]

end Text

namespace Lexing

/-- The blanks with their line ends made one. -/
def Gap.unified (g : Gap) : Gap :=
  ⟨Text.unifyLineEnds g.1, Text.isBlank_of_mem_unifyLineEnds g.2⟩

theorem Gap.unified_eq_nil_iff {g : Gap} : g.unified.1 = [] ↔ g.1 = [] :=
  Text.unifyLineEnds_eq_nil_iff

namespace Pieces

def unified (ps : Pieces) : Pieces := ps.map fun p => (p.1, p.2.unified)

/-- A gap is closed by a lexeme or by the end, and neither starts with a line feed. -/
theorem head?_text_ne_lineFeed (ps : Pieces) : (text ps).head? ≠ some '\n' := by
  intro hhead
  have hblank := head?_text _ hhead
  exact absurd hblank (by decide)

theorem text_unified (ps : Pieces) : text (unified ps) = Text.unifyLineEnds (text ps) := by
  induction ps with
  | nil => rfl
  | cons p ps ih =>
    have hlexeme : '\r' ∉ p.1.text := by
      intro hmem
      have hblank := p.1.isBlank_of_mem_text _ hmem
      exact absurd hblank (by decide)
    rw [text_cons, Text.unifyLineEnds_append_of_notMem hlexeme,
      Text.unifyLineEnds_append (head?_text_ne_lineFeed ps), ← ih]
    exact text_cons (p.1, p.2.unified) (unified ps)

/-- No blank comes between two lexemes and none goes. -/
theorem faithful_unified {ps : Pieces} (h : Faithful ps) : Faithful (unified ps) := by
  rw [faithful_iff_isChain] at h ⊢
  rw [unified, List.isChain_map]
  apply h.imp
  intro p q hpq hneeds hnil
  exact hpq hneeds (Gap.unified_eq_nil_iff.mp hnil)

end Pieces

namespace Layout

def unified (l : Layout) : Layout := ⟨l.lead.unified, Pieces.unified l.pieces⟩

theorem lexemes_unified (l : Layout) : l.unified.lexemes = l.lexemes := by
  simp [lexemes, unified, Pieces.unified]

theorem text_unified (l : Layout) : l.unified.text = Text.unifyLineEnds l.text := by
  rw [text, text, Text.unifyLineEnds_append (Pieces.head?_text_ne_lineFeed l.pieces),
    ← Pieces.text_unified]
  rfl

end Layout

end Lexing

open Lexing

/-- Tokens are spelled alike whatever the line ends between them are. -/
theorem spellings_unifyLineEnds (s : String) :
    (tokenize (String.ofList (Text.unifyLineEnds s.toList))).map Token.spelling =
      (tokenize s).map Token.spelling := by
  obtain ⟨layout, htext, hfaithful⟩ := exists_layout s.toList
  have hunified : layout.unified.text =
      (String.ofList (Text.unifyLineEnds s.toList)).toList := by
    rw [layout.text_unified, htext, String.toList_ofList]
  rw [spellings_of_faithful hunified (Pieces.faithful_unified hfaithful),
    spellings_of_faithful htext hfaithful, layout.lexemes_unified]

end MonkeySyntax
