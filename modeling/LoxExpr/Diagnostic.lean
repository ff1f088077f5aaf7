import LoxExpr.Token
/-!
# Diagnostics

What can be wrong with a text, by the stage that finds it: a scan meets bad characters, a reader tokens that no expression
goes on with, an evaluation operands of the wrong sort.  The first two are *static*: they keep a text from being evaluated.
Errors are causes with a place; their wording is in `message` and `text`.
-/
namespace LoxExpr

/-! ## In the text -/

inductive LexError.Cause where
  | unexpectedCharacter
  | unterminatedString
deriving DecidableEq

structure LexError where
  cause : LexError.Cause
  line : Nat
deriving DecidableEq

def LexError.Cause.message : LexError.Cause → String
  | unexpectedCharacter => "Unexpected character."
  | unterminatedString => "Unterminated string."

def LexError.text (e : LexError) : String :=
  "[line " ++ e.line.repr ++ "] Error: " ++ e.cause.message

/-! ## In the order of tokens -/

/-- Where reading stopped: at a token, which is shown by its lexeme, or at the end. -/
inductive Location where
  | atEnd
  | atLexeme (lexeme : String)
deriving DecidableEq

namespace Location

/-- The closing token is the end. -/
def ofToken (t : Token) : Location :=
  if t.kind = .eof then atEnd else atLexeme t.lexeme

def text : Location → String
  | atEnd => " at end"
  | atLexeme lexeme => " at '" ++ lexeme ++ "'"

end Location

inductive ParseError.Cause where
  | expectedExpression
  | expectedClosingParen
  | unexpectedTrailingTokens
  | nestingTooDeep
deriving DecidableEq

structure ParseError where
  cause : ParseError.Cause
  location : Location
  line : Nat
deriving DecidableEq

def ParseError.Cause.message : ParseError.Cause → String
  | expectedExpression => "Expect expression."
  | expectedClosingParen => "Expect ')' after expression."
  | unexpectedTrailingTokens => "Expect end of expression."
  | nestingTooDeep => "Expression nesting is too deep."

/-- The error at a token. -/
def ParseError.atToken (cause : ParseError.Cause) (t : Token) : ParseError :=
  ⟨cause, Location.ofToken t, t.line⟩

def ParseError.text (e : ParseError) : String :=
  "[line " ++ e.line.repr ++ "] Error" ++ e.location.text ++ ": " ++ e.cause.message

/-! ## In evaluation -/

inductive RuntimeError.Cause where
  | operandMustBeNumber
  | operandsMustBeNumbers
  | operandsMustBeNumbersOrStrings
deriving DecidableEq

/-- The operator is the one that refused its operands. -/
structure RuntimeError where
  cause : RuntimeError.Cause
  operator : Token
deriving DecidableEq

def RuntimeError.Cause.message : RuntimeError.Cause → String
  | operandMustBeNumber => "Operand must be a number."
  | operandsMustBeNumbers => "Operands must be numbers."
  | operandsMustBeNumbersOrStrings => "Operands must be two numbers or two strings."

def RuntimeError.text (e : RuntimeError) : String :=
  e.cause.message ++ "\n[line " ++ e.operator.line.repr ++ "]"

/-! ## All of them -/

inductive Diagnostic where
  | lex (e : LexError)
  | parse (e : ParseError)
  | runtime (e : RuntimeError)
deriving DecidableEq

namespace Diagnostic

def line : Diagnostic → Nat
  | lex e => e.line
  | parse e => e.line
  | runtime e => e.operator.line

/-- Whether the error is one of the text and not of its evaluation. -/
def isStatic : Diagnostic → Bool
  | runtime _ => false
  | _ => true

def isRuntime : Diagnostic → Bool
  | runtime _ => true
  | _ => false

/-- The message without its place. -/
def message : Diagnostic → String
  | lex e => e.cause.message
  | parse e => e.cause.message
  | runtime e => e.cause.message

def text : Diagnostic → String
  | lex e => e.text
  | parse e => e.text
  | runtime e => e.text

end Diagnostic

/-- **What was reported**, in order. -/
structure Diagnostics where
  entries : List Diagnostic
deriving DecidableEq

namespace Diagnostics

def empty : Diagnostics := ⟨[]⟩

def report (ds : Diagnostics) (d : Diagnostic) : Diagnostics := ⟨ds.entries ++ [d]⟩

def reportAll (ds : Diagnostics) (new : List Diagnostic) : Diagnostics := ⟨ds.entries ++ new⟩

def size (ds : Diagnostics) : Nat := ds.entries.length

def isEmpty (ds : Diagnostics) : Bool := ds.entries.isEmpty

/-- Whether a static error was reported. -/
def hadError (ds : Diagnostics) : Bool := ds.entries.any Diagnostic.isStatic

def hadRuntimeError (ds : Diagnostics) : Bool := ds.entries.any Diagnostic.isRuntime

/-- All texts, one after the other, with a line end between two. -/
def text (ds : Diagnostics) : String := "\n".intercalate (ds.entries.map Diagnostic.text)

@[simp] theorem entries_reportAll (ds : Diagnostics) (new : List Diagnostic) :
    (ds.reportAll new).entries = ds.entries ++ new := rfl

@[simp] theorem isEmpty_empty : empty.isEmpty = true := rfl

@[simp] theorem hadError_empty : empty.hadError = false := rfl

@[simp] theorem hadRuntimeError_empty : empty.hadRuntimeError = false := rfl

/-- Something was reported exactly when it was a static error or a runtime error. -/
theorem isEmpty_eq_false_iff (ds : Diagnostics) :
    ds.isEmpty = false ↔ ds.hadError = true ∨ ds.hadRuntimeError = true := by
  cases ds with
  | mk entries =>
    cases entries with
    | nil => simp [isEmpty, hadError, hadRuntimeError]
    | cons d ds => cases d <;> simp [isEmpty, hadError, hadRuntimeError, Diagnostic.isStatic, Diagnostic.isRuntime]

end Diagnostics
end LoxExpr
