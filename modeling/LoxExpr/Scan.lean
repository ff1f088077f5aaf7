import LoxExpr.Scan.Segment
/-!
# Scans: the tokens and the faults of a text

The pieces of a text are numbered by line: a piece belongs to the line on which it ends, which is one more than the line ends
up to there.  Layout is dropped, faults become errors, and all else becomes tokens, the last of which is the closing one on
the last line.  No fault ends a scan.
-/
namespace LoxExpr

structure Scan where
  tokens : List Token
  errors : List LexError
deriving DecidableEq

namespace Scan

/-- The scan of pieces whose first one begins on `line`. -/
def ofSegments (line : Nat) : List Segment → Scan
  | [] => ⟨[Token.eof line], []⟩
  | s :: ss =>
    let rest := ofSegments (line + s.newlines) ss
    match s.sort with
    | .ok kind =>
      if kind.isLayout then rest
      else ⟨Token.ofLexeme kind s.text (line + s.newlines) :: rest.tokens, rest.errors⟩
    | .error cause => ⟨rest.tokens, ⟨cause, line + s.newlines⟩ :: rest.errors⟩

/-- **The scan of a text.**  Lines are counted from one. -/
def ofText (source : String) : Scan := ofSegments 1 (Segment.split source.toList)

/-- The errors as they are reported. -/
def diagnostics (s : Scan) : List Diagnostic := s.errors.map Diagnostic.lex

end Scan
end LoxExpr
