import TemporalCheck.Forest
import TemporalCheck.Formula.Expr

/-!
# TemporalCheck.Formula.Printer

Formulas as text.  An operand is put in parentheses if its operator binds more loosely than its
place allows, and also if it is a binary operator that binds just as tightly: grouping is never
left to be guessed.  On request every subformula gets its parentheses.
-/

namespace TemporalCheck

namespace Expr

/-- How tightly the outermost operator of a formula binds. -/
def priority : Expr → Nat
  | .top | .bottom | .prop _ => 80
  | .unary _ _ => 50
  | .binary .implies _ _ => 10
  | .binary .and _ _ | .binary .or _ _ => 20
  | .binary .until _ _ | .binary .release _ _ | .binary .weakUntil _ _ => 30
  | .binary .allUntil _ _ | .binary .existsUntil _ _ => 80

/-- Whether the outermost operator has two operands. -/
def isBinary : Expr → Bool
  | .binary _ _ _ => true
  | _ => false

/-- Whether a formula needs parentheses where operators of priority `place` may stand. -/
def needsParens (place : Nat) (e : Expr) : Bool :=
  e.priority < place || (e.priority = place && e.isBinary)

/-- The text of a formula that stands where operators of priority `place` may stand. -/
def renderAt (allParens : Bool) (place : Nat) (e : Expr) : String :=
  let text :=
    match e with
    | .top => "T"
    | .bottom => "B"
    | .prop name => name
    | .unary op arg => op.symbol ++ arg.renderAt allParens 50
    | .binary .allUntil left right =>
      "A[" ++ left.renderAt allParens 30 ++ " U " ++ right.renderAt allParens 30 ++ "]"
    | .binary .existsUntil left right =>
      "E[" ++ left.renderAt allParens 30 ++ " U " ++ right.renderAt allParens 30 ++ "]"
    | .binary op left right =>
      let inner := (Expr.binary op left right).priority
      left.renderAt allParens inner ++ " " ++ op.symbol ++ " " ++ right.renderAt allParens inner
  if allParens || e.needsParens place then "(" ++ text ++ ")" else text

/-- The text of a formula. -/
def render (allParens : Bool) (e : Expr) : String := e.renderAt allParens 0

end Expr

namespace Forest

/-- The tree that a node stands for, if it is at most `depth` operands deep. -/
def treeWithin (f : Forest) : (depth : Nat) → NodeId → Except Fault Expr
  | 0, id => throw (.endless id)
  | d + 1, id => do
    match ← f.get id with
    | .top => return .top
    | .bottom => return .bottom
    | .prop name => return .prop name
    | .unary op arg => return .unary op (← f.treeWithin d arg)
    | .binary op left right =>
      let left ← f.treeWithin d left
      let right ← f.treeWithin d right
      return .binary op left right

/-- The tree that a node stands for. -/
def tree (f : Forest) (id : NodeId) : Except Fault Expr := f.treeWithin f.depthBound id

end Forest

end TemporalCheck
