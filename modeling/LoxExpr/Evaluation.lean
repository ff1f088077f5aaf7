import LoxExpr.Diagnostic
import LoxExpr.Expr
/-!
# Evaluation

A tree is evaluated from left to right: the operands of a node, then its operator, and the first operator that refuses its
operands ends it all.  A binary operator is applied by its family: arithmetic and comparison want two numbers, addition two
numbers or two strings, and equality takes anything.

A family can be handed an operator that is not its own.  That is no fault of the text but a misuse of the library, and it is
kept apart from the errors that are reported (`Stop`).
-/
namespace LoxExpr

/-- An operator that was handed to a family it does not belong to. -/
structure Misuse where
  family : Family
  op : BinaryOp
deriving DecidableEq

/-- Why an evaluation ends without a value. -/
inductive Stop where
  | failed (e : RuntimeError)
  | misused (m : Misuse)
deriving DecidableEq

def Family.routine : Family → String
  | equality => "eval_equality"
  | comparison => "eval_comparison"
  | addition => "eval_addition"
  | arithmetic => "eval_arithmetic"

def Misuse.message (m : Misuse) : String :=
  "internal error: entered unreachable code: " ++ m.family.routine ++ " used with " ++ m.op.text

/-! ## Operators -/

/-- Negation wants a number; anything has a truth value. -/
def UnaryOp.apply (op : UnaryOp) (token : Token) (v : Value) : Except Stop Value :=
  match op with
  | not => .ok (.bool !v.isTruthy)
  | negate =>
    match v.asNumber? with
    | some x => .ok (.number x.neg)
    | none => .error (.failed ⟨.operandMustBeNumber, token⟩)

namespace Family

/-- Runs `f` on two numbers, or refuses the operands. -/
def onNumbers (token : Token) (l r : Value) (f : Number → Number → Except Stop Value) : Except Stop Value :=
  match l.asNumber?, r.asNumber? with
  | some x, some y => f x y
  | _, _ => .error (.failed ⟨.operandsMustBeNumbers, token⟩)

/-- The operands are looked at before the operator. -/
def applyArithmetic (op : BinaryOp) (token : Token) (l r : Value) : Except Stop Value :=
  onNumbers token l r fun x y =>
    match op with
    | .sub => .ok (.number (x.sub y))
    | .mul => .ok (.number (x.mul y))
    | .div => .ok (.number (x.div y))
    | _ => .error (.misused ⟨arithmetic, op⟩)

/-- The operands are looked at before the operator. -/
def applyComparison (op : BinaryOp) (token : Token) (l r : Value) : Except Stop Value :=
  onNumbers token l r fun x y =>
    match op with
    | .greater => .ok (.bool (y.less x))
    | .greaterEqual => .ok (.bool (y.lessEqual x))
    | .less => .ok (.bool (x.less y))
    | .lessEqual => .ok (.bool (x.lessEqual y))
    | _ => .error (.misused ⟨comparison, op⟩)

/-- Addition has one operator only and does not look at it. -/
def applyAddition (token : Token) (l r : Value) : Except Stop Value :=
  match l, r with
  | .number x, .number y => .ok (.number (x.add y))
  | .string s, .string t => .ok (.string (s ++ t))
  | _, _ => .error (.failed ⟨.operandsMustBeNumbersOrStrings, token⟩)

def applyEquality (op : BinaryOp) (l r : Value) : Except Stop Value :=
  match op with
  | .equal => .ok (.bool (l.equals r))
  | .notEqual => .ok (.bool !(l.equals r))
  | _ => .error (.misused ⟨equality, op⟩)

/-- **A family applied to any operator.** -/
def apply : Family → BinaryOp → Token → Value → Value → Except Stop Value
  | equality, op, _, l, r => applyEquality op l r
  | comparison, op, token, l, r => applyComparison op token l r
  | addition, _, token, l, r => applyAddition token l r
  | arithmetic, op, token, l, r => applyArithmetic op token l r

end Family

/-- An operator is applied by its own family. -/
def BinaryOp.apply (op : BinaryOp) (token : Token) (l r : Value) : Except Stop Value :=
  op.family.apply op token l r

/-! ## Trees -/

/-- **The value of a tree**, or the first stop on the way from left to right. -/
def Expr.evaluate : Expr → Except Stop Value
  | literal v => .ok v
  | group e => e.evaluate
  | unary op token e => do
    let v ← e.evaluate
    op.apply token v
  | binary l op token r => do
    let v ← l.evaluate
    let w ← r.evaluate
    op.apply token v w

end LoxExpr
