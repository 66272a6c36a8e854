import MonkeySyntax.Ast.Render
import MonkeySyntax.Ast.Tokens

/-!
# Trees without positions

A tree is shown and compared by the literals of its tokens; where they stand does not matter. The
main statement is that trees which agree once positions are wiped out are equal as trees, look the
same in every format, and take as many calls to be shown.
-/

namespace MonkeySyntax

/-- The token as it is in no source. -/
def Token.unplaced (t : Token) : Token := { t with line := 0, col := 0 }

@[simp] theorem Token.literal_unplaced (t : Token) : t.unplaced.literal = t.literal := rfl

theorem Token.unplaced_eq_iff {s t : Token} : s.unplaced = t.unplaced ↔ s.SameText t := by
  constructor
  · intro h
    have hkind := congrArg kind h
    have hliteral := congrArg literal h
    exact ⟨hkind, hliteral⟩
  · rintro ⟨hkind, hliteral⟩
    simp [unplaced, hkind, hliteral]

namespace Node

/-- The tree as it is in no source. -/
def unplaced (n : Node) : Node := n.mapTokens Token.unplaced

variable {f : Token → Token}

theorem className_mapTokens (n : Node) : (n.mapTokens f).className = n.className := by
  cases n with
  | bare c t => cases c <;> rfl
  | _ => rfl

/-! ## Replacements that keep literals -/

theorem childText_mapChild {o : Option Node} (h : ∀ n ∈ o, (n.mapTokens f).text = n.text) :
    childText (mapChild f o) = childText o := by
  cases o with
  | none => rfl
  | some n => exact h n rfl

theorem textAll_mapAll {ns : List Node} (h : ∀ n ∈ ns, (n.mapTokens f).text = n.text) :
    textAll (mapAll f ns) = textAll ns := by
  induction ns with
  | nil => rfl
  | cons n ns ih =>
    obtain ⟨hn, hns⟩ := List.forall_mem_cons.mp h
    simp [mapAll, textAll, hn, ih hns]

theorem text_mapTokens (hf : ∀ t, (f t).literal = t.literal) (n : Node) :
    (n.mapTokens f).text = n.text := by
  induction n with
  | bare c t => exact hf t
  | identifier t name => rfl
  | integer t value => exact hf t
  | prefixOp t o right ih => rw [mapTokens, text_prefixOp, text_prefixOp, childText_mapChild ih]
  | infixOp t o left right ihl ihr =>
    rw [mapTokens, text, text, childText_mapChild ihl, childText_mapChild ihr]
  | letStmt t name value ihn ihv => rw [mapTokens, text, text, hf, ihn, childText_mapChild ihv]
  | returnStmt t value ih => rw [mapTokens, text, text, hf, childText_mapChild ih]
  | exprStmt t expression ih => exact childText_mapChild ih
  | program statements ih => exact textAll_mapAll ih

/-- A program takes the literal of its first statement. -/
theorem literal_token_mapTokens (hf : ∀ t, (f t).literal = t.literal) (n : Node) :
    (n.mapTokens f).token.literal = n.token.literal := by
  induction n with
  | program statements ih =>
    cases statements with
    | nil => rfl
    | cons s ss => exact ih s (by simp)
  | _ => exact hf _

theorem childRecord_mapChild {o : Option Node}
    (h : ∀ n ∈ o, (n.mapTokens f).toRecord = n.toRecord) :
    childRecord (mapChild f o) = childRecord o := by
  cases o with
  | none => rfl
  | some n => exact h n rfl

theorem recordAll_mapAll {ns : List Node} (h : ∀ n ∈ ns, (n.mapTokens f).toRecord = n.toRecord) :
    recordAll (mapAll f ns) = recordAll ns := by
  induction ns with
  | nil => rfl
  | cons n ns ih =>
    obtain ⟨hn, hns⟩ := List.forall_mem_cons.mp h
    rw [mapAll, recordAll, recordAll, hn, ih hns]

theorem toRecord_mapTokens (hf : ∀ t, (f t).literal = t.literal) (n : Node) :
    (n.mapTokens f).toRecord = n.toRecord := by
  induction n with
  | bare c t => simp [mapTokens, toRecord, recordOf, hf]
  | identifier t name => simp [mapTokens, toRecord, recordOf, hf]
  | integer t value => simp [mapTokens, toRecord, recordOf, hf]
  | prefixOp t o right ih =>
    simp [mapTokens, toRecord_prefixOp, prefixRecord, recordOf, hf, childRecord_mapChild ih]
  | infixOp t o left right ihl ihr =>
    simp [mapTokens, toRecord, recordOf, hf, childRecord_mapChild ihl, childRecord_mapChild ihr]
  | letStmt t name value ihn ihv =>
    simp [mapTokens, toRecord, recordOf, hf, ihn, childRecord_mapChild ihv]
  | returnStmt t value ih => simp [mapTokens, toRecord, recordOf, hf, childRecord_mapChild ih]
  | exprStmt t expression ih => simp [mapTokens, toRecord, recordOf, hf, childRecord_mapChild ih]
  | program statements ih =>
    have htoken := literal_token_mapTokens hf (program statements)
    rw [mapTokens] at htoken ⊢
    rw [toRecord, toRecord, recordOf, recordOf, htoken, recordAll_mapAll ih]

/-! ## Replacements and open calls -/

variable {w : Walk}

theorem runOpenCalls_mapChild {o : Option Node}
    (h : ∀ n ∈ o, (n.mapTokens f).openCalls w = n.openCalls w) :
    runOpenCalls w (mapChild f o) = runOpenCalls w o := by
  cases o with
  | none => rfl
  | some n =>
    have hn := h n rfl
    cases n with
    | prefixOp t o right => exact hn
    | _ => exact congrArg (fun calls => 1 + max 2 (w.toChild + calls)) hn

theorem childOpenCalls_mapChild {o : Option Node}
    (h : ∀ n ∈ o, (n.mapTokens f).openCalls w = n.openCalls w) :
    childOpenCalls w (mapChild f o) = childOpenCalls w o := by
  cases o with
  | none => rfl
  | some n => exact congrArg (w.toChild + ·) (h n rfl)

theorem openCallsAll_mapAll {ns : List Node}
    (h : ∀ n ∈ ns, (n.mapTokens f).openCalls w = n.openCalls w) :
    openCallsAll w (mapAll f ns) = openCallsAll w ns := by
  induction ns with
  | nil => rfl
  | cons n ns ih =>
    obtain ⟨hn, hns⟩ := List.forall_mem_cons.mp h
    rw [mapAll, openCallsAll, openCallsAll, hn, ih hns]

/-- Tokens play no part in how many calls a tree takes. -/
theorem openCalls_mapTokens (n : Node) : (n.mapTokens f).openCalls w = n.openCalls w := by
  induction n with
  | bare | identifier | integer => rfl
  | prefixOp t o right ih => exact runOpenCalls_mapChild ih
  | infixOp t o left right ihl ihr =>
    rw [mapTokens, openCalls, openCalls, childOpenCalls_mapChild ihl, childOpenCalls_mapChild ihr]
  | letStmt t name value ihn ihv =>
    rw [mapTokens, openCalls, openCalls, ihn, childOpenCalls_mapChild ihv]
  | returnStmt t value ih => rw [mapTokens, openCalls, openCalls, childOpenCalls_mapChild ih]
  | exprStmt t expression ih => rw [mapTokens, openCalls, openCalls, childOpenCalls_mapChild ih]
  | program statements ih => rw [mapTokens, openCalls, openCalls, openCallsAll_mapAll ih]

/-! ## Trees that differ in positions only -/

variable {n m : Node}

theorem text_eq_of_unplaced (h : n.unplaced = m.unplaced) : n.text = m.text := by
  have htext := congrArg text h
  rwa [unplaced, unplaced, text_mapTokens Token.literal_unplaced,
    text_mapTokens Token.literal_unplaced] at htext

theorem toRecord_eq_of_unplaced (h : n.unplaced = m.unplaced) : n.toRecord = m.toRecord := by
  have hrecord := congrArg toRecord h
  rwa [unplaced, unplaced, toRecord_mapTokens Token.literal_unplaced,
    toRecord_mapTokens Token.literal_unplaced] at hrecord

theorem sameTree_of_unplaced (h : n.unplaced = m.unplaced) : n.sameTree m := by
  have hclass := congrArg className h
  rw [unplaced, unplaced, className_mapTokens, className_mapTokens] at hclass
  exact sameTree_iff.mpr ⟨hclass, toRecord_eq_of_unplaced h⟩

theorem render_eq_of_unplaced (h : n.unplaced = m.unplaced) (format : Format) :
    n.render format = m.render format := by
  cases format with
  | text => exact text_eq_of_unplaced h
  | json => rw [render, render, toRecord_eq_of_unplaced h]

theorem openCalls_eq_of_unplaced (h : n.unplaced = m.unplaced) (w : Walk) :
    n.openCalls w = m.openCalls w := by
  have hcalls := congrArg (openCalls w) h
  rwa [unplaced, unplaced, openCalls_mapTokens, openCalls_mapTokens] at hcalls

theorem textOverrun?_eq_of_unplaced (h : n.unplaced = m.unplaced) (room : Nat) :
    n.textOverrun? room = m.textOverrun? room := by
  rw [textOverrun?, textOverrun?, openCalls_eq_of_unplaced h]

theorem recordOverrun?_eq_of_unplaced (h : n.unplaced = m.unplaced) (room : Nat) :
    n.recordOverrun? room = m.recordOverrun? room := by
  rw [recordOverrun?, recordOverrun?, openCalls_eq_of_unplaced h, printCalls, printCalls,
    toRecord_eq_of_unplaced h]

theorem render?_eq_of_unplaced (h : n.unplaced = m.unplaced) (room : Nat) (format : Format) :
    n.render? room format = m.render? room format := by
  have hoverrun : n.overrun? room format = m.overrun? room format := by
    cases format with
    | text => exact textOverrun?_eq_of_unplaced h room
    | json => exact recordOverrun?_eq_of_unplaced h room
  rw [render?, render?, hoverrun, render_eq_of_unplaced h]

end Node

end MonkeySyntax
