import LoxExpr.Diagnostic
/-!
# Segments: a text cut into its lexical pieces

A text is cut from left to right, each piece as long as its rule allows, until nothing is left.  A piece is of some kind of
token or layout, or it is a fault: one character that begins nothing, or a quote that no later quote closes, together with
all that follows it.  `flatMap_split` says that cutting loses nothing.

Letters and digits are those of ASCII; any other character stands for nothing outside a string or a comment.
-/
namespace LoxExpr

/-- **A piece of the text** with its kind, or with what is wrong with it. -/
structure Segment where
  sort : Except LexError.Cause TokenKind
  text : List Char

namespace Segment

/-! ## Classes of characters -/

/-- Blanks do not end a line. -/
def isBlank (c : Char) : Bool := c = ' ' || c = '\t' || c = '\r'

def isWordStart (c : Char) : Bool := c.isAlpha || c = '_'

def isWordPart (c : Char) : Bool := c.isAlphanum || c = '_'

/-! ## One piece

Each function here is given the text behind the first character of a piece and says how much of it belongs to the piece. -/

/-- How many characters in front satisfy `p`. -/
def run (p : Char → Bool) (cs : List Char) : Nat := (cs.takeWhile p).length

/-- A string reaches to the next quote, over line ends as well. -/
def cutString (cs : List Char) : Except LexError.Cause TokenKind × Nat :=
  if cs.contains '"' then (.ok .string, run (· ≠ '"') cs + 1)
  else (.error .unterminatedString, cs.length)

/-- A point belongs to a number only when a digit follows it. -/
def cutNumber (cs : List Char) : Nat :=
  let whole := run Char.isDigit cs
  match cs.drop whole with
  | '.' :: places => if run Char.isDigit places = 0 then whole else whole + 1 + run Char.isDigit places
  | _ => whole

/-- A word is a keyword if it is spelled like one. -/
def wordKind (word : List Char) : TokenKind :=
  match Keyword.ofSpelling? word with
  | some k => .keyword k
  | none => .identifier

/-- The symbol in front of a text that begins with `c`, the longer of two. -/
def symbolAt? (c : Char) (cs : List Char) : Option Symbol :=
  let spelled (word : List Char) := Symbol.all.find? (fun s => s.spelling.toList == word)
  (spelled (c :: cs.take 1)).or (spelled [c])

/-- **The piece that begins with `c`**: its sort, and how many characters of `cs` belong to it. -/
def cut (c : Char) (cs : List Char) : Except LexError.Cause TokenKind × Nat :=
  if c = '"' then cutString cs
  else if c = '\n' then (.ok .newline, 0)
  else if isBlank c then (.ok .blanks, run isBlank cs)
  else if c.isDigit then (.ok .number, cutNumber cs)
  else if isWordStart c then
    let n := run isWordPart cs
    (.ok (wordKind (c :: cs.take n)), n)
  else if c = '/' ∧ cs.head? = some '/' then (.ok .comment, run (· ≠ '\n') cs)
  else match symbolAt? c cs with
    | some s => (.ok (.symbol s), s.spelling.length - 1)
    | none => (.error .unexpectedCharacter, 0)

/-! ## The whole text -/

/-- **All pieces of a text.** -/
def split : List Char → List Segment
  | [] => []
  | c :: cs => ⟨(cut c cs).1, c :: cs.take (cut c cs).2⟩ :: split (cs.drop (cut c cs).2)
termination_by cs => cs.length
decreasing_by simp only [List.length_drop, List.length_cons]; omega

/-- The line ends in a piece. -/
def newlines (s : Segment) : Nat := s.text.count '\n'

theorem split_nil : split [] = [] := by rw [split]

theorem split_cons (c : Char) (cs : List Char) :
    split (c :: cs) = ⟨(cut c cs).1, c :: cs.take (cut c cs).2⟩ :: split (cs.drop (cut c cs).2) := by rw [split]

/-- The pieces, put together again, are the text. -/
theorem flatMap_split (cs : List Char) : (split cs).flatMap text = cs := by
  fun_induction split cs with
  | case1 => rfl
  | case2 c cs ih => simp [ih, List.take_append_drop]

theorem text_ne_nil {cs : List Char} {s : Segment} (h : s ∈ split cs) : s.text ≠ [] := by
  fun_induction split cs with
  | case1 => cases h
  | case2 c cs ih =>
    rcases List.mem_cons.1 h with rfl | h
    · exact List.cons_ne_nil _ _
    · exact ih h

end Segment
end LoxExpr
