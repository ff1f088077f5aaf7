import LoxExpr.Operator
/-!
# Expressions

The tree of an expression.  A group is a node of its own, and an operator node keeps the token it was read from, which an
error of that operator carries.

A tree is written in two ways.  `prefixText` shows its shape, each node in parentheses with its operator first.
`sourceText` is text of the language again: every operator node is put in parentheses, so precedence plays no part, and a
negative number is written as the negation of its opposite.  A string with a quote in it and a number that is not finite have
no source form.
-/
namespace LoxExpr

inductive Expr where
  | literal (value : Value)
  | group (inner : Expr)
  | unary (op : UnaryOp) (token : Token) (operand : Expr)
  | binary (left : Expr) (op : BinaryOp) (token : Token) (right : Expr)
deriving DecidableEq

namespace Expr

/-- A unary node whose token is the operator's own. -/
def unaryAt (op : UnaryOp) (operand : Expr) (line : Nat) : Expr := unary op (op.token line) operand

/-- A binary node whose token is the operator's own. -/
def binaryAt (left : Expr) (op : BinaryOp) (right : Expr) (line : Nat) : Expr := binary left op (op.token line) right

/-- **The shape of a tree**, fully parenthesized, operators first. -/
def prefixText : Expr → String
  | literal v => v.text
  | group e => "(group " ++ e.prefixText ++ ")"
  | unary op _ e => "(" ++ op.text ++ " " ++ e.prefixText ++ ")"
  | binary l op _ r => "(" ++ op.text ++ " " ++ l.prefixText ++ " " ++ r.prefixText ++ ")"

/-- A literal as the language writes it. -/
def literalSource : Value → String
  | .number n => if n.isNegative then "(-" ++ n.neg.text ++ ")" else n.text
  | .string s => "\"" ++ s ++ "\""
  | v => v.text

/-- **A text that is read back as the same tree**, but for the parentheses around its operator nodes. -/
def sourceText : Expr → String
  | literal v => literalSource v
  | group e => "(" ++ e.sourceText ++ ")"
  | unary op _ e => "(" ++ op.text ++ e.sourceText ++ ")"
  | binary l op _ r => "(" ++ l.sourceText ++ " " ++ op.text ++ " " ++ r.sourceText ++ ")"

/-- Equality of trees as the language compares their literals; operator tokens count. -/
def equals : Expr → Expr → Bool
  | literal v, literal w => v.equals w
  | group a, group b => a.equals b
  | unary op t a, unary op' t' b => op == op' && t.equals t' && a.equals b
  | binary a op t b, binary a' op' t' b' => a.equals a' && op == op' && t.equals t' && b.equals b'
  | _, _ => false

/-- All nodes, each before its operands and the left operand before the right. -/
def preorder : Expr → List Expr
  | literal v => [literal v]
  | group e => group e :: e.preorder
  | unary op t e => unary op t e :: e.preorder
  | binary l op t r => binary l op t r :: (l.preorder ++ r.preorder)

/-- The number of nodes. -/
def size : Expr → Nat
  | literal _ => 1
  | group e => e.size + 1
  | unary _ _ e => e.size + 1
  | binary l _ _ r => l.size + r.size + 1

/-- The number of edges on the longest way down to a literal. -/
def height : Expr → Nat
  | literal _ => 0
  | group e => e.height + 1
  | unary _ _ e => e.height + 1
  | binary l _ _ r => max l.height r.height + 1

end Expr
end LoxExpr
