import MonkeySyntax.Proofs.Positions

/-!
# Equality of trees

Trees count as equal when their classes and their records agree. A record names the kind of its
node and holds every part of it, so that for nodes with content of their own nothing is lost but the
kinds and positions of tokens. The main statement is that two such trees count as equal exactly if
they are one tree once only the literals of the tokens are left, and that they then look the same.
-/

namespace MonkeySyntax

open Json (Value)

/-- The token with nothing left of it but its literal. -/
def Token.bareLiteral (t : Token) : Token := { endOfInput with literal := t.literal }

@[simp] theorem Token.literal_bareLiteral (t : Token) : t.bareLiteral.literal = t.literal := rfl

theorem Token.bareLiteral_eq_iff {s t : Token} :
    s.bareLiteral = t.bareLiteral ↔ s.literal = t.literal := by
  simp [bareLiteral, endOfInput]

namespace Node

/-- Every node of the tree has content of its own. Any of them may stand in any place. -/
inductive Concrete : Node → Prop
  | identifier (t : Token) (name : String) : Concrete (identifier t name)
  | integer (t : Token) (value : Int) : Concrete (integer t value)
  | prefixOp (t : Token) (operator : String) (right : Option Node) :
    (∀ n ∈ right, Concrete n) → Concrete (prefixOp t operator right)
  | infixOp (t : Token) (operator : String) (left right : Option Node) :
    (∀ n ∈ left, Concrete n) → (∀ n ∈ right, Concrete n) →
      Concrete (infixOp t operator left right)
  | letStmt (t : Token) (name : Node) (value : Option Node) :
    Concrete name → (∀ n ∈ value, Concrete n) → Concrete (letStmt t name value)
  | returnStmt (t : Token) (value : Option Node) :
    (∀ n ∈ value, Concrete n) → Concrete (returnStmt t value)
  | exprStmt (t : Token) (expression : Option Node) :
    (∀ n ∈ expression, Concrete n) → Concrete (exprStmt t expression)
  | program (statements : List Node) :
    (∀ n ∈ statements, Concrete n) → Concrete (program statements)

/-- The tree with its tokens replaced by their literals. -/
def literals (n : Node) : Node := n.mapTokens Token.bareLiteral

/-! ## The parts of a record -/

/-- The kind that a record names. -/
def kind : Node → String
  | bare .. => "node"
  | identifier .. => "identifier"
  | integer .. => "integer"
  | prefixOp .. => "prefix"
  | infixOp .. => "infix"
  | letStmt .. => "let"
  | returnStmt .. => "return"
  | exprStmt .. => "expression"
  | program .. => "program"

/-- The fields behind the kind and the literal of the token. -/
def fields : Node → List (String × Value)
  | bare .. => []
  | identifier _ name => [("value", .string name)]
  | integer _ value => [("value", .int value)]
  | prefixOp _ operator right => [("operator", .string operator), ("right", childRecord right)]
  | infixOp _ operator left right =>
    [("operator", .string operator), ("left", childRecord left), ("right", childRecord right)]
  | letStmt _ name value => [("name", name.toRecord), ("value", childRecord value)]
  | returnStmt _ value => [("return_value", childRecord value)]
  | exprStmt _ expression => [("expression", childRecord expression)]
  | program statements => [("statements", .array (recordAll statements))]

theorem toRecord_eq_recordOf (n : Node) : n.toRecord = recordOf n.kind n.token n.fields := by
  cases n with
  | prefixOp t operator right => exact toRecord_prefixOp t operator right
  | _ => rfl

theorem toRecord_eq_iff {a b : Node} :
    a.toRecord = b.toRecord ↔
      a.kind = b.kind ∧ a.token.literal = b.token.literal ∧ a.fields = b.fields := by
  simp [toRecord_eq_recordOf, recordOf]

theorem toRecord_ne_null (n : Node) : n.toRecord ≠ .null := by
  rw [toRecord_eq_recordOf]
  exact Value.noConfusion

/-! ## Trees with one record -/

/-- The record of the tree is that of no tree that differs in more than tokens. -/
def Determined (a : Node) : Prop :=
  ∀ b : Node, b.Concrete → a.toRecord = b.toRecord → a.literals = b.literals

/-- A missing child and one that is there have different records. -/
theorem mapChild_eq_of_record {o o' : Option Node} (ho : ∀ n ∈ o, n.Determined)
    (ho' : ∀ n ∈ o', n.Concrete) (h : childRecord o = childRecord o') :
    mapChild Token.bareLiteral o = mapChild Token.bareLiteral o' := by
  cases o with
  | none =>
    cases o' with
    | none => rfl
    | some m => exact absurd h.symm m.toRecord_ne_null
  | some n =>
    cases o' with
    | none => exact absurd h n.toRecord_ne_null
    | some m => exact congrArg some (ho n rfl m (ho' m rfl) h)

theorem mapAll_eq_of_record {ns ms : List Node} (hns : ∀ n ∈ ns, n.Determined)
    (hms : ∀ m ∈ ms, m.Concrete) (h : recordAll ns = recordAll ms) :
    mapAll Token.bareLiteral ns = mapAll Token.bareLiteral ms := by
  induction ns generalizing ms with
  | nil =>
    cases ms with
    | nil => rfl
    | cons m ms => cases h
  | cons n ns ih =>
    cases ms with
    | nil => cases h
    | cons m ms =>
      obtain ⟨hn, hns⟩ := List.forall_mem_cons.mp hns
      obtain ⟨hm, hms⟩ := List.forall_mem_cons.mp hms
      obtain ⟨hhead, htail⟩ := List.cons.inj h
      have hnode : n.literals = m.literals := hn m hm hhead
      have hrest := ih hns hms htail
      rw [mapAll, mapAll, hrest]
      exact congrArg (· :: _) hnode

/-- A record names the kind of its node, and so the other tree is of the same variant. -/
theorem Concrete.determined {a : Node} (ha : a.Concrete) : a.Determined := by
  induction ha <;> intro b hb h <;>
    obtain ⟨hkind, hliteral, hfields⟩ := toRecord_eq_iff.mp h <;>
    cases hb <;> simp only [kind, String.reduceEq] at hkind
  case identifier.identifier t name t' name' =>
    have htoken : t.bareLiteral = t'.bareLiteral := Token.bareLiteral_eq_iff.mpr hliteral
    obtain rfl : name = name' := by simpa [fields] using hfields
    simp only [literals, mapTokens, htoken]
  case integer.integer t value t' value' =>
    have htoken : t.bareLiteral = t'.bareLiteral := Token.bareLiteral_eq_iff.mpr hliteral
    obtain rfl : value = value' := by simpa [fields] using hfields
    simp only [literals, mapTokens, htoken]
  case prefixOp.prefixOp t o right _ ih t' o' right' hright' =>
    have htoken : t.bareLiteral = t'.bareLiteral := Token.bareLiteral_eq_iff.mpr hliteral
    obtain ⟨rfl, hright⟩ : o = o' ∧ childRecord right = childRecord right' := by
      simpa [fields] using hfields
    simp only [literals, mapTokens, htoken, mapChild_eq_of_record ih hright' hright]
  case infixOp.infixOp t o left right _ _ ihl ihr t' o' left' right' hleft' hright' =>
    have htoken : t.bareLiteral = t'.bareLiteral := Token.bareLiteral_eq_iff.mpr hliteral
    obtain ⟨rfl, hleft, hright⟩ : o = o' ∧ childRecord left = childRecord left' ∧
        childRecord right = childRecord right' := by
      simpa [fields] using hfields
    simp only [literals, mapTokens, htoken, mapChild_eq_of_record ihl hleft' hleft,
      mapChild_eq_of_record ihr hright' hright]
  case letStmt.letStmt t name value _ _ ihn ihv t' name' value' hname' hvalue' =>
    have htoken : t.bareLiteral = t'.bareLiteral := Token.bareLiteral_eq_iff.mpr hliteral
    obtain ⟨hname, hvalue⟩ : name.toRecord = name'.toRecord ∧
        childRecord value = childRecord value' := by
      simpa [fields] using hfields
    have hliterals : name.literals = name'.literals := ihn name' hname' hname
    simp only [literals] at hliterals
    simp only [literals, mapTokens, htoken, hliterals, mapChild_eq_of_record ihv hvalue' hvalue]
  case returnStmt.returnStmt t value _ ih t' value' hvalue' =>
    have htoken : t.bareLiteral = t'.bareLiteral := Token.bareLiteral_eq_iff.mpr hliteral
    have hvalue : childRecord value = childRecord value' := by simpa [fields] using hfields
    simp only [literals, mapTokens, htoken, mapChild_eq_of_record ih hvalue' hvalue]
  case exprStmt.exprStmt t expression _ ih t' expression' hexpression' =>
    have htoken : t.bareLiteral = t'.bareLiteral := Token.bareLiteral_eq_iff.mpr hliteral
    have hexpression : childRecord expression = childRecord expression' := by
      simpa [fields] using hfields
    simp only [literals, mapTokens, htoken,
      mapChild_eq_of_record ih hexpression' hexpression]
  case program.program statements _ ih statements' hstatements' =>
    -- The token of a program is that of its first statement, and adds nothing.
    have hstatements : recordAll statements = recordAll statements' := by
      simpa [fields] using hfields
    simp only [literals, mapTokens, mapAll_eq_of_record ih hstatements' hstatements]

/-! ## Trees that look the same -/

theorem display_program (ns : List Node) :
    (program ns).display =
      "Program(statements=[" ++ ", ".intercalate (displayAll ns) ++ "])" := rfl

theorem display_of_ne_program {n : Node} (h : n.kind ≠ "program") :
    n.display = n.className ++ "(" ++ Text.quoted n.text ++ ")" := by
  cases n with
  | program statements => exact absurd rfl h
  | _ => rfl

variable {f : Token → Token}

theorem kind_mapTokens (n : Node) : (n.mapTokens f).kind = n.kind := by
  cases n <;> rfl

theorem displayAll_mapAll {ns : List Node} (h : ∀ n ∈ ns, (n.mapTokens f).display = n.display) :
    displayAll (mapAll f ns) = displayAll ns := by
  induction ns with
  | nil => rfl
  | cons n ns ih =>
    obtain ⟨hn, hns⟩ := List.forall_mem_cons.mp h
    rw [mapAll, displayAll, displayAll, hn, ih hns]

theorem display_mapTokens_of_ne_program (hf : ∀ t, (f t).literal = t.literal) {n : Node}
    (h : n.kind ≠ "program") : (n.mapTokens f).display = n.display := by
  have hmapped : (n.mapTokens f).kind ≠ "program" := by rwa [kind_mapTokens]
  rw [display_of_ne_program hmapped, display_of_ne_program h, text_mapTokens hf,
    className_mapTokens]

theorem display_mapTokens (hf : ∀ t, (f t).literal = t.literal) (n : Node) :
    (n.mapTokens f).display = n.display := by
  induction n with
  | program statements ih => rw [mapTokens, display_program, display_program, displayAll_mapAll ih]
  | _ => exact display_mapTokens_of_ne_program hf (by simp [kind])

variable {a b : Node}

theorem toRecord_eq_of_literals (h : a.literals = b.literals) : a.toRecord = b.toRecord := by
  have hrecord := congrArg toRecord h
  rwa [literals, literals, toRecord_mapTokens Token.literal_bareLiteral,
    toRecord_mapTokens Token.literal_bareLiteral] at hrecord

theorem className_eq_of_literals (h : a.literals = b.literals) : a.className = b.className := by
  have hclass := congrArg className h
  rwa [literals, literals, className_mapTokens, className_mapTokens] at hclass

theorem text_eq_of_literals (h : a.literals = b.literals) : a.text = b.text := by
  have htext := congrArg text h
  rwa [literals, literals, text_mapTokens Token.literal_bareLiteral,
    text_mapTokens Token.literal_bareLiteral] at htext

theorem display_eq_of_literals (h : a.literals = b.literals) : a.display = b.display := by
  have hdisplay := congrArg display h
  rwa [literals, literals, display_mapTokens Token.literal_bareLiteral,
    display_mapTokens Token.literal_bareLiteral] at hdisplay

/-- Trees are equal exactly if they are one tree up to the kinds and positions of tokens. -/
theorem sameTree_iff_literals_eq (ha : a.Concrete) (hb : b.Concrete) :
    (a.sameTree b ↔ a.literals = b.literals) ∧
      (a.sameTree b → a.text = b.text ∧ a.display = b.display) := by
  have hiff : a.sameTree b ↔ a.literals = b.literals := by
    rw [sameTree_iff]
    constructor
    · rintro ⟨-, hrecord⟩
      exact ha.determined b hb hrecord
    · intro h
      exact ⟨className_eq_of_literals h, toRecord_eq_of_literals h⟩
  refine ⟨hiff, ?_⟩
  intro h
  have hliterals := hiff.mp h
  exact ⟨text_eq_of_literals hliterals, display_eq_of_literals hliterals⟩

/-- A child without content of its own keeps its class to itself: only the root's is compared. -/
example (t : Token) :
    (exprStmt t (some (bare .statement t))).sameTree (exprStmt t (some (bare .expression t))) := by
  simp [sameTree, className, toRecord]

/-- Kinds and positions of tokens do not count, but the literal of an operator's token does, also
where the operator is the same. -/
theorem sameTree_prefixOp_missing :
    let tree (kind : TokenKind) (literal : String) (line : Int) : Node :=
      program [exprStmt ⟨kind, "!", line, 1⟩ (some (prefixOp ⟨kind, literal, line, 1⟩ "!" none))]
    (tree .bang "!" 1).Concrete ∧ (tree .illegal "!" 7).Concrete ∧ (tree .bang "-" 1).Concrete ∧
      (tree .bang "!" 1).sameTree (tree .illegal "!" 7) ∧
      (tree .bang "!" 1).text = (tree .illegal "!" 7).text ∧
      (tree .bang "!" 1).display = (tree .illegal "!" 7).display ∧
      ¬ (tree .bang "!" 1).sameTree (tree .bang "-" 1) := by
  intro tree
  have hconcrete : ∀ kind literal line, (tree kind literal line).Concrete := by
    intro kind literal line
    apply Concrete.program
    rintro s hs
    obtain rfl := List.mem_singleton.mp hs
    apply Concrete.exprStmt
    rintro n ⟨⟩
    apply Concrete.prefixOp
    rintro m ⟨⟩
  obtain ⟨hsame, hlook⟩ :=
    sameTree_iff_literals_eq (hconcrete .bang "!" 1) (hconcrete .illegal "!" 7)
  obtain ⟨hother, -⟩ := sameTree_iff_literals_eq (hconcrete .bang "!" 1) (hconcrete .bang "-" 1)
  have heq := hsame.mpr rfl
  obtain ⟨htext, hdisplay⟩ := hlook heq
  refine ⟨hconcrete _ _ _, hconcrete _ _ _, hconcrete _ _ _, heq, htext, hdisplay, ?_⟩
  intro h
  have hliterals := hother.mp h
  simp [tree, literals, mapTokens, mapAll, mapChild, Token.bareLiteral] at hliterals

end Node

end MonkeySyntax
