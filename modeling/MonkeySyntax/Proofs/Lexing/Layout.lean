import Mathlib.Data.List.Chain
import MonkeySyntax.Proofs.Lexing.Lexeme

/-!
# Layouts

A layout writes lexemes out with blanks before, between and behind them. It is faithful if no lexeme
could be longer where it stands, and that depends on neighbours alone: the first of two lexemes may
need a blank in front of the second. Every text has a faithful layout, and lexemes and text
determine the blanks.
-/

namespace MonkeySyntax.Lexing

abbrev Gap := { cs : List Char // ∀ c ∈ cs, isBlank c }

/-- Lexemes with the blanks behind each of them. -/
abbrev Pieces := List (Lexeme × Gap)

/-- Lexemes with the blanks in front of them and behind each of them. -/
structure Layout where
  lead : Gap
  pieces : Pieces

namespace Pieces

def text (ps : Pieces) : List Char := ps.flatMap fun p => p.1.text ++ p.2.1

/-- No lexeme could be longer where it stands. -/
def Faithful : Pieces → Prop
  | [] => True
  | p :: ps => p.1.EndsBefore (p.2.1 ++ text ps) ∧ Faithful ps

@[simp] theorem text_nil : text [] = [] := rfl

@[simp] theorem text_cons (p : Lexeme × Gap) (ps : Pieces) :
    text (p :: ps) = p.1.text ++ (p.2.1 ++ text ps) := by
  simp [text]

theorem Faithful.endsBefore {ps : Pieces} (h : Faithful ps) {before behind : Pieces}
    {p : Lexeme × Gap} (hps : ps = before ++ p :: behind) :
    p.1.EndsBefore (p.2.1 ++ text behind) := by
  induction before generalizing ps with
  | nil =>
    subst hps
    exact h.1
  | cons q before ih =>
    subst hps
    exact ih h.2 rfl

end Pieces

namespace Layout

def text (l : Layout) : List Char := l.lead.1 ++ l.pieces.text

def lexemes (l : Layout) : List Lexeme := l.pieces.map Prod.fst

def Faithful (l : Layout) : Prop := Pieces.Faithful l.pieces

end Layout

/-! ## Neighbours -/

/-- Side by side the first lexeme would go on with the second, wholly or in part. -/
def NeedsGap (a b : Lexeme) : Prop :=
  IsWord a.text ∧ (IsWord b.text ∨ IsNumber b.text) ∨
    IsNumber a.text ∧ IsNumber b.text ∨
      (a.text = ['='] ∨ a.text = ['!']) ∧ (b.text = ['='] ∨ b.text = ['=', '='])

instance (a b : Lexeme) : Decidable (NeedsGap a b) := inferInstanceAs (Decidable (_ ∨ _))

theorem Lexeme.endsBefore_text_iff {a b : Lexeme} {next : List Char} :
    a.EndsBefore (b.text ++ next) ↔ ¬ NeedsGap a b := by
  obtain ⟨c, hc⟩ := b.exists_starts
  have hhead : (b.text ++ next).head? = some c := by
    rw [List.head?_append, hc.head]
    rfl
  rw [NeedsGap, ← hc.wordChar, ← hc.digit, ← hc.sign]
  constructor
  · rintro h (⟨hword, hchar⟩ | ⟨hnumber, hdigit⟩ | ⟨hsign, heq⟩)
    · simp [h.word hword c hhead] at hchar
    · simp [h.number hnumber c hhead] at hdigit
    · exact h.operator hsign (heq ▸ hhead)
  · intro h
    simp only [not_or, not_and, Bool.not_eq_true] at h
    obtain ⟨hword, hnumber, hsign⟩ := h
    refine ⟨fun ha d hd => ?_, fun ha d hd => ?_, fun ha hd => ?_⟩
    · obtain rfl := Option.some.inj (hhead.symm.trans hd)
      exact hword ha
    · obtain rfl := Option.some.inj (hhead.symm.trans hd)
      exact hnumber ha
    · exact hsign (by tauto) (Option.some.inj (hhead.symm.trans hd))

/-- An exclamation mark has to be parted from an equality sign, but not from an inequality sign. -/
example :
    let bang : Lexeme := ⟨.bang, ['!'], .operator (by decide)⟩
    NeedsGap bang ⟨.eq, ['=', '='], .operator (by decide)⟩ ∧
      ¬ NeedsGap bang ⟨.notEq, ['!', '='], .operator (by decide)⟩ := by
  decide

theorem Lexeme.endsBefore_gap {a : Lexeme} {g : Gap} (hg : g.1 ≠ []) (next : List Char) :
    a.EndsBefore (g.1 ++ next) := by
  obtain ⟨c, cs, hcs⟩ := List.exists_cons_of_ne_nil hg
  rw [hcs]
  exact Lexeme.endsBefore_blank (g.2 c (by simp [hcs]))

/-- A lexeme in front of another could not be longer unless a blank is wanting. -/
theorem endsBefore_cons_iff {p q : Lexeme × Gap} {ps : Pieces} :
    p.1.EndsBefore (p.2.1 ++ Pieces.text (q :: ps)) ↔ (NeedsGap p.1 q.1 → p.2.1 ≠ []) := by
  by_cases hgap : p.2.1 = []
  · rw [hgap, List.nil_append, Pieces.text_cons, Lexeme.endsBefore_text_iff]
    simp
  · exact iff_of_true (Lexeme.endsBefore_gap hgap _) fun _ => hgap

theorem endsBefore_last (p : Lexeme × Gap) : p.1.EndsBefore (p.2.1 ++ Pieces.text []) := by
  by_cases hgap : p.2.1 = []
  · rw [hgap]
    exact p.1.endsBefore_nil
  · exact Lexeme.endsBefore_gap hgap _

/-- Being faithful is a matter of neighbours. -/
theorem Pieces.faithful_iff_isChain (ps : Pieces) :
    Pieces.Faithful ps ↔ ps.IsChain fun p q => NeedsGap p.1 q.1 → p.2.1 ≠ [] := by
  induction ps with
  | nil => exact iff_of_true trivial .nil
  | cons p ps ih =>
    cases ps with
    | nil => exact iff_of_true ⟨endsBefore_last p, trivial⟩ (.singleton p)
    | cons q ps => rw [Faithful, endsBefore_cons_iff, ih, List.isChain_cons_cons]

/-! ## Texts -/

theorem Pieces.head?_text {ps : Pieces} : ∀ c ∈ (text ps).head?, isBlank c = false := by
  cases ps with
  | nil => simp
  | cons p ps =>
    obtain ⟨c, hc⟩ := p.1.exists_starts
    rw [text_cons, List.head?_append, hc.head]
    simpa using hc.blank

/-- The lexemes of a text fix the blanks between them. -/
theorem Layout.eq_of_text_eq {l m : Layout} (hlexemes : l.lexemes = m.lexemes)
    (htext : l.text = m.text) : l = m := by
  obtain ⟨g, ps⟩ := l
  obtain ⟨g', qs⟩ := m
  simp only [lexemes, text] at hlexemes htext
  induction ps generalizing g g' qs with
  | nil =>
    obtain rfl : qs = [] := by simpa using hlexemes.symm
    obtain rfl : g = g' := Subtype.ext (by simpa using htext)
    rfl
  | cons p ps ih =>
    have hlead := congrArg (List.takeWhile isBlank) htext
    rw [takeWhile_append g.2 Pieces.head?_text, takeWhile_append g'.2 Pieces.head?_text] at hlead
    obtain rfl := Subtype.ext hlead
    cases qs with
    | nil => cases hlexemes
    | cons q qs =>
      obtain ⟨hp, hlexemes⟩ := List.cons.inj hlexemes
      have hrest := List.append_cancel_left htext
      rw [Pieces.text_cons, Pieces.text_cons, hp] at hrest
      obtain ⟨hgap, rfl⟩ := Layout.mk.inj (ih p.2 q.2 qs hlexemes (List.append_cancel_left hrest))
      rw [Prod.ext hp hgap]

/-- Every text has a faithful layout. -/
theorem exists_layout (cs : List Char) : ∃ l : Layout, l.text = cs ∧ l.Faithful := by
  induction h : cs.length using Nat.strongRecOn generalizing cs with
  | ind n ih =>
    subst h
    have hlead : ∀ c ∈ cs.takeWhile isBlank, isBlank c := fun c hc => List.mem_takeWhile_imp hc
    have hsplit := List.takeWhile_append_dropWhile (p := isBlank) (l := cs)
    have hhead := List.head?_dropWhile_not isBlank cs
    cases hrest : cs.dropWhile isBlank with
    | nil =>
      rw [hrest] at hsplit
      exact ⟨⟨⟨_, hlead⟩, []⟩, hsplit, trivial⟩
    | cons c rest =>
      rw [hrest] at hhead hsplit
      obtain ⟨a, next, htext, hends⟩ := @exists_lexeme c rest hhead
      have hlength : next.length < cs.length := by
        have hpos := List.length_pos_iff.mpr a.text_ne_nil
        rw [← hsplit, htext, List.length_append, List.length_append]
        omega
      obtain ⟨l, hl, hfaithful⟩ := ih _ hlength next rfl
      refine ⟨⟨⟨_, hlead⟩, (a, l.lead) :: l.pieces⟩, ?_, ?_, hfaithful⟩
      · rw [Layout.text, Pieces.text_cons, ← Layout.text, hl, ← htext, hsplit]
      · rw [← Layout.text, hl]
        exact hends

/-- The lexemes of a layout are its text without the blanks. -/
theorem Layout.flatMap_text (l : Layout) :
    l.lexemes.flatMap Lexeme.text = l.text.filter fun c => !isBlank c := by
  have hgap : ∀ g : Gap, (g.1.filter fun c => !isBlank c) = [] := by
    intro g
    simpa [List.filter_eq_nil_iff] using g.2
  obtain ⟨g, ps⟩ := l
  rw [text, List.filter_append, hgap, List.nil_append]
  induction ps with
  | nil => rfl
  | cons p ps ih =>
    have htext : (p.1.text.filter fun c => !isBlank c) = p.1.text := by
      simpa [List.filter_eq_self] using p.1.isBlank_of_mem_text
    rw [Pieces.text_cons, List.filter_append, List.filter_append, htext, hgap, List.nil_append,
      ← ih]
    rfl

end MonkeySyntax.Lexing
