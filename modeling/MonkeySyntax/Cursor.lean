/-!
# Cursors over a text

A cursor is a position in a text together with the line and column it stands at. Positions are
integers. A step that starts before the text reads from its end, as far back as the text is long,
while looking ahead sees only what lies inside the text. The main statements describe a cursor
inside the text by `rest`, the characters it has not read.

Everything that a caller can make a cursor do is a value, too: an operation. Operations may come in
any order; one that fails leaves the cursor where it was.
-/

namespace MonkeySyntax

structure Cursor where
  text : Array Char
  position : Int
  line : Int
  column : Int
deriving DecidableEq, Repr

/-- Why a step cannot be taken. -/
inductive ReadFault where
  | pastEnd (position line : Int)
  | beforeText
deriving DecidableEq, Repr

namespace ReadFault

def message : ReadFault → String
  | pastEnd position line =>
    s!"Attempted to read past end of source at position=<{position}>, line=<{line}>"
  | beforeText => "string index out of range"

end ReadFault

namespace Cursor

/-- The start of a text: line one, column one. -/
def ofString (s : String) : Cursor := ⟨s.toList.toArray, 0, 1, 1⟩

def atEnd (c : Cursor) : Bool := (c.text.size : Int) ≤ c.position

/-- The character at an offset from the cursor, if that lies inside the text. -/
def peek? (c : Cursor) (offset : Int) : Option Char :=
  if c.position + offset < 0 then none else c.text[(c.position + offset).toNat]?

/-- The character that a step reads; before the text, positions count from its end. -/
def read? (c : Cursor) : Option Char :=
  if 0 ≤ c.position then c.text[c.position.toNat]?
  else if 0 ≤ c.text.size + c.position then c.text[(c.text.size + c.position).toNat]?
  else none

/-- The cursor behind a character that was read. -/
def step (c : Cursor) (ch : Char) : Cursor :=
  if ch = '\n' then { c with position := c.position + 1, line := c.line + 1, column := 1 }
  else { c with position := c.position + 1, column := c.column + 1 }

def next (c : Cursor) : Except ReadFault (Char × Cursor) :=
  match c.read? with
  | some ch => .ok (ch, c.step ch)
  | none => .error (if c.atEnd then .pastEnd c.position c.line else .beforeText)

/-- How many characters can be read before the end. -/
def left (c : Cursor) : Nat := (c.text.size - c.position).toNat

/-- The cursor does not stand so far before the text that no step is possible. -/
def InReach (c : Cursor) : Prop := -(c.text.size : Int) ≤ c.position

instance (c : Cursor) : Decidable c.InReach := inferInstanceAs (Decidable (_ ≤ _))

@[simp] theorem step_text (c : Cursor) (ch : Char) : (c.step ch).text = c.text := by
  unfold step; split <;> rfl

@[simp] theorem step_position (c : Cursor) (ch : Char) :
    (c.step ch).position = c.position + 1 := by
  unfold step; split <;> rfl

theorem position_lt_of_read? {c : Cursor} {ch : Char} (h : c.read? = some ch) :
    c.position < c.text.size := by
  unfold read? at h
  split at h
  · have := (Array.getElem?_eq_some_iff.mp h).1
    omega
  · omega

theorem left_step_lt {c : Cursor} {ch : Char} (h : c.read? = some ch) :
    (c.step ch).left < c.left := by
  have := position_lt_of_read? h
  simp only [left, step_text, step_position]
  omega

theorem inReach_step {c : Cursor} (h : c.InReach) (ch : Char) : (c.step ch).InReach := by
  simp only [InReach, step_text, step_position] at *
  omega

/-- Within reach a step fails at the end of the text only. -/
theorem read?_eq_none_iff {c : Cursor} (h : c.InReach) : c.read? = none ↔ c.atEnd := by
  simp only [InReach] at h
  simp only [read?, atEnd, decide_eq_true_eq]
  split
  · rw [Array.getElem?_eq_none_iff]
    omega
  · rw [if_pos (by omega), Array.getElem?_eq_none_iff]
    omega

theorem left_eq_zero_iff {c : Cursor} : c.left = 0 ↔ c.atEnd := by
  simp only [left, atEnd, decide_eq_true_eq]
  omega

/-- Reads over given characters. -/
def past (c : Cursor) (cs : List Char) : Cursor := cs.foldl step c

@[simp] theorem past_nil (c : Cursor) : c.past [] = c := rfl

@[simp] theorem past_cons (c : Cursor) (ch : Char) (cs : List Char) :
    c.past (ch :: cs) = (c.step ch).past cs := rfl

@[simp] theorem past_text (c : Cursor) (cs : List Char) : (c.past cs).text = c.text := by
  induction cs generalizing c with
  | nil => rfl
  | cons ch cs ih => simp [ih]

@[simp] theorem past_position (c : Cursor) (cs : List Char) :
    (c.past cs).position = c.position + cs.length := by
  induction cs generalizing c with
  | nil => simp
  | cons ch cs ih =>
    simp only [past_cons, ih, step_position, List.length_cons]
    omega

theorem past_inReach {c : Cursor} (h : c.InReach) (cs : List Char) : (c.past cs).InReach := by
  simp only [InReach, past_text, past_position] at *
  omega

theorem left_past (c : Cursor) (cs : List Char) : (c.past cs).left = c.left - cs.length := by
  simp only [left, past_text, past_position]
  omega

/-- Reads characters for as long as they are accepted. -/
def takeWhile (accept : Char → Bool) (c : Cursor) : List Char × Cursor :=
  match _h : c.read? with
  | none => ([], c)
  | some ch =>
    if accept ch then
      let (cs, d) := (c.step ch).takeWhile accept
      (ch :: cs, d)
    else ([], c)
termination_by c.left
decreasing_by exact left_step_lt _h

/-- Before the text every character is read over, up to the start. -/
def enter (c : Cursor) : Cursor :=
  if c.position < 0 then
    match _h : c.read? with
    | none => c
    | some ch => (c.step ch).enter
  else c
termination_by c.left
decreasing_by exact left_step_lt _h

theorem takeWhile_past (accept : Char → Bool) (c : Cursor) :
    (c.takeWhile accept).2 = c.past (c.takeWhile accept).1 := by
  fun_induction takeWhile accept c with
  | case1 | case3 => rfl
  | case2 c ch h hc cs d heq ih => simpa [heq] using ih

theorem takeWhile_left_le (accept : Char → Bool) (c : Cursor) :
    (c.takeWhile accept).2.left ≤ c.left := by
  rw [takeWhile_past, left_past]
  omega

theorem takeWhile_inReach (accept : Char → Bool) {c : Cursor} (h : c.InReach) :
    (c.takeWhile accept).2.InReach := by
  rw [takeWhile_past]
  exact past_inReach h _

/-- What is taken starts with the character at the cursor, if that is accepted. -/
theorem takeWhile_ne_nil {accept : Char → Bool} {c : Cursor} {ch : Char}
    (h : c.read? = some ch) (ha : accept ch) : (c.takeWhile accept).1 ≠ [] := by
  rw [takeWhile]
  split
  · simp_all
  · simp_all

theorem enter_left_le (c : Cursor) : c.enter.left ≤ c.left := by
  fun_induction enter c with
  | case1 | case3 => exact Nat.le_refl _
  | case2 c _ ch h ih =>
    have := left_step_lt h
    omega

theorem enter_inReach {c : Cursor} (hc : c.InReach) : c.enter.InReach := by
  fun_induction enter c with
  | case1 | case3 => exact hc
  | case2 c _ ch h ih => exact ih (inReach_step hc ch)

/-! ## Inside the text -/

/-- The characters not yet read. -/
def rest (c : Cursor) : List Char := c.text.toList.drop c.position.toNat

theorem rest_ofString (s : String) : (ofString s).rest = s.toList := by
  simp [ofString, rest]

theorem read?_eq_head? {c : Cursor} (h : 0 ≤ c.position) : c.read? = c.rest.head? := by
  simp [read?, rest, h]

theorem peek?_eq_getElem? {c : Cursor} (h : 0 ≤ c.position) (k : Nat) :
    c.peek? k = c.rest[k]? := by
  have h1 : ¬ c.position + (k : Int) < 0 := by omega
  have h2 : (c.position + (k : Int)).toNat = c.position.toNat + k := by omega
  simp [peek?, rest, h1, h2]

theorem rest_step {c : Cursor} (h : 0 ≤ c.position) (ch : Char) :
    (c.step ch).rest = c.rest.tail := by
  have : (c.position + 1).toNat = c.position.toNat + 1 := by omega
  simp [rest, this]

theorem takeWhile_position {accept : Char → Bool} {c : Cursor} (h : 0 ≤ c.position) :
    0 ≤ (c.takeWhile accept).2.position := by
  rw [takeWhile_past, past_position]
  omega

theorem takeWhile_fst {accept : Char → Bool} {c : Cursor} (h : 0 ≤ c.position) :
    (c.takeWhile accept).1 = c.rest.takeWhile accept := by
  fun_induction takeWhile accept c with
  | case1 c hr =>
    rw [read?_eq_head? h, List.head?_eq_none_iff] at hr
    simp [hr]
  | case2 c ch hr ha cs d heq ih =>
    have hp : 0 ≤ (c.step ch).position := by rw [step_position]; omega
    rw [read?_eq_head? h] at hr
    obtain ⟨tl, htl⟩ := List.head?_eq_some_iff.mp hr
    have := ih hp
    rw [heq, rest_step h, htl] at this
    simpa [htl, ha] using this
  | case3 c ch hr ha =>
    rw [read?_eq_head? h] at hr
    obtain ⟨tl, htl⟩ := List.head?_eq_some_iff.mp hr
    simp [htl, ha]

/-! ## Operations -/

inductive Operation where
  | next
  | peek (offset : Int)
  | atEnd
deriving DecidableEq, Repr

inductive Answer where
  | read (ch : Char)
  | failed (fault : ReadFault)
  | seen (ch : Option Char)
  | flag (b : Bool)
deriving DecidableEq, Repr

/-- The character that was read, if one was. -/
def Answer.read? : Answer → Option Char
  | read ch => some ch
  | _ => none

def Operation.run (o : Operation) (c : Cursor) : Answer × Cursor :=
  match o with
  | .next =>
    match c.next with
    | .ok (ch, d) => (.read ch, d)
    | .error e => (.failed e, c)
  | .peek offset => (.seen (c.peek? offset), c)
  | .atEnd => (.flag c.atEnd, c)

/-- The answers to operations in their order, and the cursor behind them. -/
def perform (c : Cursor) : List Operation → List Answer × Cursor
  | [] => ([], c)
  | o :: os =>
    let (a, d) := o.run c
    let (as, e) := d.perform os
    (a :: as, e)

/-- The characters that operations read, in their order. -/
def readBy (c : Cursor) (os : List Operation) : List Char := (c.perform os).1.filterMap Answer.read?

end Cursor

end MonkeySyntax
