/-! # Operators

The unary and binary operators of expressions with the marks they are written by. -/

namespace MacroExpansion

/-- An operator with one operand. -/
inductive UnaryOp where
  /-- Arithmetic negation, `-x`. -/
  | neg
  /-- Logical negation, `!x`. -/
  | not
  /-- Increment before use, `++x`. -/
  | preIncrement
  /-- Decrement before use, `--x`. -/
  | preDecrement
  /-- Increment after use, `x++`. -/
  | postIncrement
  /-- Decrement after use, `x--`. -/
  | postDecrement
  deriving DecidableEq, Repr, Inhabited

namespace UnaryOp

/-- The mark written before the operand; empty for operators that follow it. -/
def leading : UnaryOp → String
  | .neg => "-"
  | .not => "!"
  | .preIncrement => "++"
  | .preDecrement => "--"
  | .postIncrement | .postDecrement => ""

/-- The mark written after the operand; empty for operators that precede it. -/
def trailing : UnaryOp → String
  | .postIncrement => "++"
  | .postDecrement => "--"
  | .neg | .not | .preIncrement | .preDecrement => ""

end UnaryOp

/-- An operator with two operands. -/
inductive BinaryOp where
  /-- Sum. -/
  | add
  /-- Difference. -/
  | sub
  /-- Product. -/
  | mul
  /-- Quotient. -/
  | div
  /-- Equality. -/
  | eq
  /-- Inequality. -/
  | ne
  /-- Strictly less. -/
  | lt
  /-- Less or equal. -/
  | le
  /-- Strictly greater. -/
  | gt
  /-- Greater or equal. -/
  | ge
  /-- Conjunction. -/
  | and
  /-- Disjunction. -/
  | or
  deriving DecidableEq, Repr, Inhabited

/-- The mark written between the operands. -/
def BinaryOp.symbol : BinaryOp → String
  | .add => "+"
  | .sub => "-"
  | .mul => "*"
  | .div => "/"
  | .eq => "=="
  | .ne => "!="
  | .lt => "<"
  | .le => "<="
  | .gt => ">"
  | .ge => ">="
  | .and => "&&"
  | .or => "||"

end MacroExpansion
