import LoxExpr.Token
/-!
# Operators

Two unary and ten binary operators, each written with one symbol.  The binary ones are grouped twice: by the *layer* of the
grammar that reads them, which is their precedence, and by the *family* that evaluates them, which is what they ask of their
operands.  The minus sign is an operator of both sorts.
-/
namespace LoxExpr

inductive UnaryOp where
  | negate | not
deriving DecidableEq

inductive BinaryOp where
  | equal | notEqual
  | greater | greaterEqual | less | lessEqual
  | add | sub | mul | div
deriving DecidableEq

/-- The layers of left-associative operators, loosest first. -/
inductive Layer where
  | equality | comparison | term | factor
deriving DecidableEq

/-- The families of binary operators, by what they ask of their operands. -/
inductive Family where
  | equality | comparison | addition | arithmetic
deriving DecidableEq

/-- A token made for an operator symbol. -/
def Symbol.token (s : Symbol) (line : Nat) : Token := ⟨.symbol s, s.spelling, none, line⟩

namespace UnaryOp

def all : List UnaryOp := [negate, not]

def symbol : UnaryOp → Symbol
  | negate => .minus
  | not => .bang

def text (op : UnaryOp) : String := op.symbol.spelling

/-- The operator's own token on a line. -/
def token (op : UnaryOp) (line : Nat) : Token := op.symbol.token line

/-- The operator that a kind of token stands for in front of an operand. -/
def ofKind? (kind : TokenKind) : Option UnaryOp := all.find? (fun op => kind == .symbol op.symbol)

end UnaryOp

namespace BinaryOp

def all : List BinaryOp :=
  [equal, notEqual, greater, greaterEqual, less, lessEqual, add, sub, mul, div]

def symbol : BinaryOp → Symbol
  | equal => .equalEqual
  | notEqual => .bangEqual
  | greater => .greater
  | greaterEqual => .greaterEqual
  | less => .less
  | lessEqual => .lessEqual
  | add => .plus
  | sub => .minus
  | mul => .star
  | div => .slash

def text (op : BinaryOp) : String := op.symbol.spelling

/-- The operator's own token on a line. -/
def token (op : BinaryOp) (line : Nat) : Token := op.symbol.token line

/-- The operator that a kind of token stands for between two operands. -/
def ofKind? (kind : TokenKind) : Option BinaryOp := all.find? (fun op => kind == .symbol op.symbol)

def layer : BinaryOp → Layer
  | equal | notEqual => .equality
  | greater | greaterEqual | less | lessEqual => .comparison
  | add | sub => .term
  | mul | div => .factor

def family : BinaryOp → Family
  | equal | notEqual => .equality
  | greater | greaterEqual | less | lessEqual => .comparison
  | add => .addition
  | sub | mul | div => .arithmetic

end BinaryOp

namespace Layer

/-- The next tighter layer; below the tightest one stand the unary operators. -/
def tighter? : Layer → Option Layer
  | equality => some comparison
  | comparison => some term
  | term => some factor
  | factor => none

/-- How many layers are tighter. -/
def rank : Layer → Nat
  | equality => 3
  | comparison => 2
  | term => 1
  | factor => 0

end Layer

/-! ## Operators and kinds -/

theorem UnaryOp.ofKind?_eq_some_iff {kind : TokenKind} {op : UnaryOp} :
    UnaryOp.ofKind? kind = some op ↔ kind = .symbol op.symbol := by
  constructor
  · intro h
    simpa using List.find?_some h
  · rintro rfl
    cases op <;> rfl

theorem BinaryOp.ofKind?_eq_some_iff {kind : TokenKind} {op : BinaryOp} :
    BinaryOp.ofKind? kind = some op ↔ kind = .symbol op.symbol := by
  constructor
  · intro h
    simpa using List.find?_some h
  · rintro rfl
    cases op <;> rfl

end LoxExpr
