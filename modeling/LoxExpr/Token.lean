import LoxExpr.Value
/-!
# Tokens

A token is a stretch of the text with its kind, the line it ends on and, for a number or a string, the value it stands for.
The kinds of one fixed spelling are the symbols and the keywords; identifiers, strings and numbers have many.  Comments, line
ends and runs of blanks are kinds as well, which no scan puts into its list.
-/
namespace LoxExpr

/-! ## Kinds -/

inductive Symbol where
  | leftParen | rightParen | leftBrace | rightBrace
  | comma | dot | minus | plus | semicolon | slash | star
  | bang | bangEqual | equal | equalEqual
  | greater | greaterEqual | less | lessEqual
deriving DecidableEq

inductive Keyword where
  | andWord | classWord | elseWord | falseWord | forWord | funWord | ifWord | nilWord
  | orWord | printWord | returnWord | superWord | thisWord | trueWord | varWord | whileWord
deriving DecidableEq

inductive TokenKind where
  | symbol (s : Symbol)
  | keyword (k : Keyword)
  | identifier
  | string
  | number
  | comment
  | newline
  | blanks
  | eof
deriving DecidableEq

namespace Symbol

def all : List Symbol :=
  [leftParen, rightParen, leftBrace, rightBrace, comma, dot, minus, plus, semicolon, slash, star, bang, bangEqual,
    equal, equalEqual, greater, greaterEqual, less, lessEqual]

/-- The characters a symbol is written with. -/
def spelling : Symbol → String
  | leftParen => "("
  | rightParen => ")"
  | leftBrace => "\x7b"
  | rightBrace => "\x7d"
  | comma => ","
  | dot => "."
  | minus => "-"
  | plus => "+"
  | semicolon => ";"
  | slash => "/"
  | star => "*"
  | bang => "!"
  | bangEqual => "!="
  | equal => "="
  | equalEqual => "=="
  | greater => ">"
  | greaterEqual => ">="
  | less => "<"
  | lessEqual => "<="

def name : Symbol → String
  | leftParen => "LEFT_PAREN"
  | rightParen => "RIGHT_PAREN"
  | leftBrace => "LEFT_BRACE"
  | rightBrace => "RIGHT_BRACE"
  | comma => "COMMA"
  | dot => "DOT"
  | minus => "MINUS"
  | plus => "PLUS"
  | semicolon => "SEMICOLON"
  | slash => "SLASH"
  | star => "STAR"
  | bang => "BANG"
  | bangEqual => "BANG_EQUAL"
  | equal => "EQUAL"
  | equalEqual => "EQUAL_EQUAL"
  | greater => "GREATER"
  | greaterEqual => "GREATER_EQUAL"
  | less => "LESS"
  | lessEqual => "LESS_EQUAL"

theorem mem_all (s : Symbol) : s ∈ all := by cases s <;> decide

end Symbol

namespace Keyword

def all : List Keyword :=
  [andWord, classWord, elseWord, falseWord, forWord, funWord, ifWord, nilWord, orWord, printWord, returnWord, superWord,
    thisWord, trueWord, varWord, whileWord]

def spelling : Keyword → String
  | andWord => "and"
  | classWord => "class"
  | elseWord => "else"
  | falseWord => "false"
  | forWord => "for"
  | funWord => "fun"
  | ifWord => "if"
  | nilWord => "nil"
  | orWord => "or"
  | printWord => "print"
  | returnWord => "return"
  | superWord => "super"
  | thisWord => "this"
  | trueWord => "true"
  | varWord => "var"
  | whileWord => "while"

/-- A keyword is named by its capitals. -/
def name (k : Keyword) : String := String.ofList (k.spelling.toList.map Char.toUpper)

/-- The keyword with a given spelling. -/
def ofSpelling? (word : List Char) : Option Keyword := all.find? (fun k => k.spelling.toList == word)

end Keyword

namespace TokenKind

/-- The name under which a kind is shown. -/
def name : TokenKind → String
  | symbol s => s.name
  | keyword k => k.name
  | identifier => "IDENTIFIER"
  | string => "STRING"
  | number => "NUMBER"
  | comment => "COMMENT"
  | newline => "NEWLINE"
  | blanks => "IGNORED"
  | eof => "EOF"

/-- The kinds that separate tokens and are dropped by a scan. -/
def isLayout : TokenKind → Bool
  | comment | newline | blanks => true
  | _ => false

def all : List TokenKind :=
  Symbol.all.map symbol ++ Keyword.all.map keyword ++
    [identifier, string, number, comment, newline, blanks, eof]

/-- The kind that is shown under a name. -/
def ofName? (name : String) : Option TokenKind := all.find? (fun k => k.name == name)

end TokenKind

/-! ## Tokens -/

/-- **A token.**  The lexeme is its exact text, and `line` the line on which that ends. -/
structure Token where
  kind : TokenKind
  lexeme : String
  literal : Option Value
  line : Nat
deriving DecidableEq

namespace Token

/-- The contents of a quoted text; nothing when a quote is missing on either side. -/
def unquote? : List Char → Option (List Char)
  | '"' :: cs => if cs.getLast? = some '"' then some cs.dropLast else none
  | _ => none

/-- The value a lexeme stands for.  Only numbers and strings stand for one. -/
def literalOf? (kind : TokenKind) (lexeme : List Char) : Option Value :=
  match kind with
  | .number => (Number.ofText? lexeme).map .number
  | .string => (unquote? lexeme).map (fun cs => .string (String.ofList cs))
  | _ => none

/-- The token of a lexeme. -/
def ofLexeme (kind : TokenKind) (lexeme : List Char) (line : Nat) : Token :=
  ⟨kind, String.ofList lexeme, literalOf? kind lexeme, line⟩

/-- The token that closes every scan. -/
def eof (line : Nat) : Token := ⟨.eof, "", none, line⟩

/-- Kind, lexeme and literal, with a blank after the lexeme even when there is no literal. -/
def text (t : Token) : String :=
  t.kind.name ++ " " ++ t.lexeme ++ " " ++ (t.literal.map Value.text).getD ""

/-- Equality as the language sees it, which differs from identity only in a literal that is a `nan` or a zero. -/
def equals (s t : Token) : Bool :=
  s.kind == t.kind && s.lexeme == t.lexeme && s.line == t.line &&
    match s.literal, t.literal with
    | none, none => true
    | some v, some w => v.equals w
    | _, _ => false

end Token
end LoxExpr
