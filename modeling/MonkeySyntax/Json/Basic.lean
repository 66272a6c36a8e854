/-!
# JSON values

The JSON values that a syntax tree needs: no booleans and no fractions. The fields of an object have
an order, which counts for equality.
-/

namespace MonkeySyntax.Json

inductive Value where
  | null
  | int (i : Int)
  | string (s : String)
  | array (items : List Value)
  | object (fields : List (String × Value))
deriving Repr

namespace Value

mutual

/-- Decides equality of values. -/
protected def decEq : (a b : Value) → Decidable (a = b)
  | null, null => isTrue rfl
  | int i, int j => decidable_of_iff (i = j) (by simp)
  | string s, string t => decidable_of_iff (s = t) (by simp)
  | array xs, array ys =>
    match itemsDecEq xs ys with
    | isTrue h => isTrue (by rw [h])
    | isFalse h => isFalse (by simpa using h)
  | object xs, object ys =>
    match fieldsDecEq xs ys with
    | isTrue h => isTrue (by rw [h])
    | isFalse h => isFalse (by simpa using h)
  | null, int _ | null, string _ | null, array _ | null, object _
  | int _, null | int _, string _ | int _, array _ | int _, object _
  | string _, null | string _, int _ | string _, array _ | string _, object _
  | array _, null | array _, int _ | array _, string _ | array _, object _
  | object _, null | object _, int _ | object _, string _ | object _, array _ =>
    isFalse (by simp)
termination_by structural a => a

def itemsDecEq : (xs ys : List Value) → Decidable (xs = ys)
  | [], [] => isTrue rfl
  | [], _ :: _ | _ :: _, [] => isFalse (by simp)
  | x :: xs, y :: ys =>
    match Value.decEq x y, itemsDecEq xs ys with
    | isTrue h, isTrue h' => isTrue (by rw [h, h'])
    | isFalse h, _ => isFalse (by simp [h])
    | _, isFalse h => isFalse (by simp [h])
termination_by structural xs => xs

def fieldsDecEq : (xs ys : List (String × Value)) → Decidable (xs = ys)
  | [], [] => isTrue rfl
  | [], _ :: _ | _ :: _, [] => isFalse (by simp)
  | x :: xs, y :: ys =>
    match fieldDecEq x y, fieldsDecEq xs ys with
    | isTrue h, isTrue h' => isTrue (by rw [h, h'])
    | isFalse h, _ => isFalse (by simp [h])
    | _, isFalse h => isFalse (by simp [h])
termination_by structural xs => xs

def fieldDecEq : (x y : String × Value) → Decidable (x = y)
  | (k, v), (l, w) =>
    match decEq k l, Value.decEq v w with
    | isTrue h, isTrue h' => isTrue (by rw [h, h'])
    | isFalse h, _ => isFalse (by simp [h])
    | _, isFalse h => isFalse (by simp [h])
termination_by structural x => x

end

instance : DecidableEq Value := Value.decEq

mutual

/-- How deep arrays and objects stand inside each other. -/
def nesting : Value → Nat
  | null | int _ | string _ => 0
  | array items => 1 + itemsNesting items
  | object fields => 1 + fieldsNesting fields
termination_by structural v => v

def itemsNesting : List Value → Nat
  | [] => 0
  | v :: vs => max v.nesting (itemsNesting vs)
termination_by structural vs => vs

def fieldsNesting : List (String × Value) → Nat
  | [] => 0
  | f :: fs => max (fieldNesting f) (fieldsNesting fs)
termination_by structural fs => fs

def fieldNesting : String × Value → Nat
  | (_, v) => v.nesting
termination_by structural f => f

end

/-- Structural induction in which items and values of fields are members. -/
@[elab_as_elim, induction_eliminator]
theorem induct {motive : Value → Prop}
    (null : motive null)
    (int : ∀ i, motive (int i))
    (string : ∀ s, motive (string s))
    (array : ∀ items, (∀ v ∈ items, motive v) → motive (array items))
    (object : ∀ fields, (∀ f ∈ fields, motive f.2) → motive (object fields))
    (v : Value) : motive v :=
  @Value.rec motive (fun l => ∀ v ∈ l, motive v) (fun l => ∀ f ∈ l, motive f.2)
    (fun f => motive f.2) null int string array object
    (by simp) (fun _ _ h h' => List.forall_mem_cons.mpr ⟨h, h'⟩)
    (by simp) (fun _ _ h h' => List.forall_mem_cons.mpr ⟨h, h'⟩) (fun _ _ h => h) v

end Value

end MonkeySyntax.Json
