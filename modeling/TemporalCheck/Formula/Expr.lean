/-!
# TemporalCheck.Formula.Expr

The operators of temporal formulas, and formulas as trees.  Operators on one future (`X`, `F`, `G`,
`U`, `R`, `W`) belong to linear time, quantified ones (`AG`, …, `A[ U ]`, `E[ U ]`) to branching
time, and the Boolean ones to both.  Trees are what the reader of formulas produces and what a
formula stored in a forest of shared nodes stands for.
-/

namespace TemporalCheck

/-! ## Operators -/

/-- The connectives with one operand. -/
inductive UnaryOp where
  | not
  | next
  | future
  | global
  | allGlobally
  | existsGlobally
  | allFinally
  | existsFinally
  | allNext
  | existsNext
deriving DecidableEq, Inhabited

/-- The connectives with two operands. -/
inductive BinaryOp where
  | implies
  | and
  | or
  | until
  | release
  | weakUntil
  /-- `A[a U b]` -/
  | allUntil
  /-- `E[a U b]` -/
  | existsUntil
deriving DecidableEq, Inhabited

/-- Which logics the operators of a formula come from. -/
structure Usage where
  linear : Bool := false
  branching : Bool := false
deriving DecidableEq, Inhabited

namespace Usage

/-- The logics of two formulas together. -/
def join (a b : Usage) : Usage := ⟨a.linear || b.linear, a.branching || b.branching⟩

/-- No logic: only Boolean connectives. -/
def boolean : Usage := {}

/-- Linear time only. -/
def ofLinear : Usage := { linear := true }

/-- Branching time only. -/
def ofBranching : Usage := { branching := true }

@[simp] theorem linear_join (a b : Usage) : (a.join b).linear = (a.linear || b.linear) := rfl

@[simp] theorem branching_join (a b : Usage) :
    (a.join b).branching = (a.branching || b.branching) := rfl

end Usage

namespace UnaryOp

/-- How the operator is written before its operand. -/
def symbol : UnaryOp → String
  | .not => "!"
  | .next => "X "
  | .future => "F "
  | .global => "G "
  | .allGlobally => "AG "
  | .existsGlobally => "EG "
  | .allFinally => "AF "
  | .existsFinally => "EF "
  | .allNext => "AX "
  | .existsNext => "EX "

/-- The logic the operator belongs to. -/
def usage : UnaryOp → Usage
  | .not => .boolean
  | .next | .future | .global => .ofLinear
  | .allGlobally | .existsGlobally | .allFinally | .existsFinally | .allNext | .existsNext =>
    .ofBranching

end UnaryOp

namespace BinaryOp

/-- How the operator is written between its operands. -/
def symbol : BinaryOp → String
  | .implies => "->"
  | .and => "&"
  | .or => "|"
  | .until | .allUntil | .existsUntil => "U"
  | .release => "R"
  | .weakUntil => "W"

/-- The logic the operator belongs to. -/
def usage : BinaryOp → Usage
  | .implies | .and | .or => .boolean
  | .until | .release | .weakUntil => .ofLinear
  | .allUntil | .existsUntil => .ofBranching

end BinaryOp

/-! ## Trees -/

/-- A temporal formula. -/
inductive Expr where
  | top
  | bottom
  | prop (name : String)
  | unary (op : UnaryOp) (arg : Expr)
  | binary (op : BinaryOp) (left right : Expr)
deriving DecidableEq, Inhabited

namespace Expr

/-- The logics that the operators of a formula come from. -/
def usage : Expr → Usage
  | .top | .bottom | .prop _ => .boolean
  | .unary op a => op.usage.join a.usage
  | .binary op a b => op.usage.join (a.usage.join b.usage)

/-- The number of operators and atoms. -/
def size : Expr → Nat
  | .top | .bottom | .prop _ => 1
  | .unary _ a => a.size + 1
  | .binary _ a b => a.size + b.size + 1

end Expr

end TemporalCheck
