/-!
# Kinds of token

The closed list of token kinds. A kind has a symbolic name (`NOT_EQ`) and a label by which
diagnostics show it (`!=`). Keywords, operators and delimiters have a fixed spelling in a source;
the main statements say that the two look-ups by spelling agree with the tables of spellings.

Operators bind at seven levels, ranked from the loosest to the tightest. Every infix operator ranks
strictly between the lowest level and that of the unary operators, so an operand of a unary operator
never reaches over an infix operator.
-/

namespace MonkeySyntax

inductive TokenKind where
  | illegal | eof
  | ident | int
  | assign | plus | minus | bang | asterisk | slash
  | lt | gt | eq | notEq
  | comma | semicolon | lparen | rparen | lbrace | rbrace
  | function | letKw | returnKw
deriving DecidableEq, Repr

namespace TokenKind

/-- Every kind, in the order of declaration. -/
def all : List TokenKind :=
  [illegal, eof, ident, int, assign, plus, minus, bang, asterisk, slash, lt, gt, eq, notEq,
    comma, semicolon, lparen, rparen, lbrace, rbrace, function, letKw, returnKw]

def name : TokenKind → String
  | illegal => "ILLEGAL"
  | eof => "EOF"
  | ident => "IDENT"
  | int => "INT"
  | assign => "ASSIGN"
  | plus => "PLUS"
  | minus => "MINUS"
  | bang => "BANG"
  | asterisk => "ASTERISK"
  | slash => "SLASH"
  | lt => "LT"
  | gt => "GT"
  | eq => "EQ"
  | notEq => "NOT_EQ"
  | comma => "COMMA"
  | semicolon => "SEMICOLON"
  | lparen => "LPAREN"
  | rparen => "RPAREN"
  | lbrace => "LBRACE"
  | rbrace => "RBRACE"
  | function => "FUNCTION"
  | letKw => "LET"
  | returnKw => "RETURN"

/-- How diagnostics show a kind: an operator or delimiter by its spelling, any other by its name. -/
def label : TokenKind → String
  | assign => "="
  | plus => "+"
  | minus => "-"
  | bang => "!"
  | asterisk => "*"
  | slash => "/"
  | lt => "<"
  | gt => ">"
  | eq => "=="
  | notEq => "!="
  | comma => ","
  | semicolon => ";"
  | lparen => "("
  | rparen => ")"
  | lbrace => "\x7b"
  | rbrace => "\x7d"
  | k => k.name

def ofLabel? (s : String) : Option TokenKind :=
  all.find? fun k => k.label == s

/-- The reserved words. -/
def keywords : List (String × TokenKind) :=
  [("fn", function), ("let", letKw), ("return", returnKw)]

/-- The operators and delimiters, none longer than two characters. -/
def operators : List (String × TokenKind) :=
  [assign, plus, minus, bang, asterisk, slash, lt, gt, eq, notEq,
    comma, semicolon, lparen, rparen, lbrace, rbrace].map fun k => (k.label, k)

def ofKeyword? : List Char → Option TokenKind
  | ['f', 'n'] => some function
  | ['l', 'e', 't'] => some letKw
  | ['r', 'e', 't', 'u', 'r', 'n'] => some returnKw
  | _ => none

def ofOperator? : List Char → Option TokenKind
  | ['='] => some assign
  | ['+'] => some plus
  | ['-'] => some minus
  | ['!'] => some bang
  | ['*'] => some asterisk
  | ['/'] => some slash
  | ['<'] => some lt
  | ['>'] => some gt
  | ['=', '='] => some eq
  | ['!', '='] => some notEq
  | [','] => some comma
  | [';'] => some semicolon
  | ['('] => some lparen
  | [')'] => some rparen
  | ['\x7b'] => some lbrace
  | ['\x7d'] => some rbrace
  | _ => none

/-- The keyword look-up is the table of reserved words. -/
theorem ofKeyword?_eq_some_iff {w : List Char} {k : TokenKind} :
    ofKeyword? w = some k ↔ (String.ofList w, k) ∈ keywords := by
  constructor
  · intro h
    unfold ofKeyword? at h
    split at h <;> cases h <;> decide
  · intro h
    simp only [keywords, List.mem_cons, Prod.mk.injEq, List.not_mem_nil, or_false] at h
    rcases h with ⟨hw, rfl⟩ | ⟨hw, rfl⟩ | ⟨hw, rfl⟩ <;>
      · rw [← String.toList_ofList (l := w), hw]
        decide

/-- The operator look-up is the table of operators and delimiters. -/
theorem ofOperator?_eq_some_iff {w : List Char} {k : TokenKind} :
    ofOperator? w = some k ↔ (String.ofList w, k) ∈ operators := by
  constructor
  · intro h
    unfold ofOperator? at h
    split at h <;> cases h <;> decide
  · intro h
    simp only [operators, label, List.map_cons, List.map_nil, List.mem_cons, Prod.mk.injEq,
      List.not_mem_nil, or_false] at h
    rcases h with ⟨hw, rfl⟩ | ⟨hw, rfl⟩ | ⟨hw, rfl⟩ | ⟨hw, rfl⟩ | ⟨hw, rfl⟩ | ⟨hw, rfl⟩ |
      ⟨hw, rfl⟩ | ⟨hw, rfl⟩ | ⟨hw, rfl⟩ | ⟨hw, rfl⟩ | ⟨hw, rfl⟩ | ⟨hw, rfl⟩ | ⟨hw, rfl⟩ |
      ⟨hw, rfl⟩ | ⟨hw, rfl⟩ | ⟨hw, rfl⟩ <;>
      · rw [← String.toList_ofList (l := w), hw]
        decide

end TokenKind

/-! ## Precedence of operators -/

inductive Precedence where
  | lowest | equals | lessGreater | sum | product | unary | call
deriving DecidableEq, Repr

namespace Precedence

/-- Every level, from the loosest to the tightest. -/
def all : List Precedence :=
  [lowest, equals, lessGreater, sum, product, unary, call]

def name : Precedence → String
  | lowest => "LOWEST"
  | equals => "EQUALS"
  | lessGreater => "LESSGREATER"
  | sum => "SUM"
  | product => "PRODUCT"
  | unary => "PREFIX"
  | call => "CALL"

def rank : Precedence → Int
  | lowest => 1
  | equals => 2
  | lessGreater => 3
  | sum => 4
  | product => 5
  | unary => 6
  | call => 7

end Precedence

namespace TokenKind

/-- The level of an infix operator; no other kind has one. -/
def infixLevel? : TokenKind → Option Precedence
  | eq | notEq => some .equals
  | lt | gt => some .lessGreater
  | plus | minus => some .sum
  | asterisk | slash => some .product
  | _ => none

def isInfix (k : TokenKind) : Bool := k.infixLevel?.isSome

/-- The operators that may stand before an operand. -/
def isUnary (k : TokenKind) : Bool := k == bang || k == minus

/-- The rank at which a kind continues an expression: the lowest one, except for infix operators. -/
def rank (k : TokenKind) : Int := (k.infixLevel?.getD .lowest).rank

theorem rank_lt_unary (k : TokenKind) : k.rank < Precedence.unary.rank := by
  cases k <;> decide

theorem lowest_lt_rank_iff {k : TokenKind} : Precedence.lowest.rank < k.rank ↔ k.isInfix := by
  cases k <;> decide

end TokenKind

end MonkeySyntax
