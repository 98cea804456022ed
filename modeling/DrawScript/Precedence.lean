import DrawScript.Token.Kind

/-!
# Operators and how tightly they bind

Eight levels of binding, from the level of a whole expression to that of an index. The level of a
token kind says how tightly the token holds on to the expression on its left; a kind that never
continues an expression has the lowest level.
-/

namespace DrawScript

open Token (Kind)

/-- The levels of binding, loosest first. -/
inductive Precedence where
  | lowest
  | equals
  | lessGreater
  | sum
  | product
  | unary
  | call
  | index
  deriving DecidableEq, Repr

namespace Precedence

/-- The place of a level in the order. -/
def rank : Precedence → Nat
  | lowest => 0
  | equals => 1
  | lessGreater => 2
  | sum => 3
  | product => 4
  | unary => 5
  | call => 6
  | index => 7

instance : LT Precedence := ⟨fun a b ↦ a.rank < b.rank⟩

instance (a b : Precedence) : Decidable (a < b) :=
  inferInstanceAs (Decidable (a.rank < b.rank))

theorem lt_iff_rank_lt {a b : Precedence} : a < b ↔ a.rank < b.rank := Iff.rfl

/-- How the level is written in data. -/
def tag : Precedence → String
  | lowest => "Lowest"
  | equals => "Equals"
  | lessGreater => "LessGreater"
  | sum => "Sum"
  | product => "Product"
  | unary => "Prefix"
  | call => "Call"
  | index => "Index"

/-- Every level, loosest first. -/
def all : List Precedence :=
  [lowest, equals, lessGreater, sum, product, unary, call, index]

/-- The levels that bind more tightly, loosest first. -/
def higher (p : Precedence) : List Precedence :=
  all.filter fun q ↦ p < q

/-- How tightly a token of this kind holds on to the expression on its left. -/
def of : Kind → Precedence
  | .eq | .notEq => equals
  | .lt | .gt => lessGreater
  | .plus | .minus => sum
  | .asterisk | .slash => product
  | .lparen => call
  | .lbracket => index
  | _ => lowest

end Precedence

/-- The operators that stand before their operand. -/
inductive UnaryOperator where
  | bang
  | minus
  deriving DecidableEq, Repr

namespace UnaryOperator

/-- The operator that a token of this kind stands for. -/
def ofKind? : Kind → Option UnaryOperator
  | .bang => some bang
  | .minus => some minus
  | _ => none

/-- The source text of the operator. -/
def text : UnaryOperator → String
  | bang => "!"
  | minus => "-"

/-- How the data formats write the operator. -/
def tag : UnaryOperator → String
  | bang => "Bang"
  | minus => "Minus"

end UnaryOperator

/-- The operators that stand between their operands. -/
inductive BinaryOperator where
  | plus
  | minus
  | asterisk
  | slash
  | eq
  | notEq
  | lt
  | gt
  deriving DecidableEq, Repr

namespace BinaryOperator

/-- The operator that a token of this kind stands for. -/
def ofKind? : Kind → Option BinaryOperator
  | .plus => some plus
  | .minus => some minus
  | .asterisk => some asterisk
  | .slash => some slash
  | .eq => some eq
  | .notEq => some notEq
  | .lt => some lt
  | .gt => some gt
  | _ => none

/-- The source text of the operator. -/
def text : BinaryOperator → String
  | plus => "+"
  | minus => "-"
  | asterisk => "*"
  | slash => "/"
  | eq => "=="
  | notEq => "!="
  | lt => "<"
  | gt => ">"

/-- How the data formats write the operator. -/
def tag : BinaryOperator → String
  | plus => "Plus"
  | minus => "Minus"
  | asterisk => "Asterisk"
  | slash => "Slash"
  | eq => "Eq"
  | notEq => "NotEq"
  | lt => "Lt"
  | gt => "Gt"

end BinaryOperator

end DrawScript
