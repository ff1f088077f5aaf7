import LoxExpr.Number.Arithmetic
import LoxExpr.Number.Decimal
/-!
# Numbers as text

Writing never uses an exponent: a finite number is its shortest decimal in positional notation, after a minus sign when it
is negative.  Reading accepts more than is ever written: a sign, digits with a point before, between or after them, an
exponent, and the names of the infinity and of `nan` in any case.
-/
namespace LoxExpr

/-! ## Writing -/

/-- The minus sign of a negative number. -/
def signText (negative : Bool) : String := if negative then "-" else ""

/-- **The text of a number**: the shortest one that is read back as the same number. -/
def Number.text : Number → String
  | nan _ => "NaN"
  | infinity s => signText s ++ "inf"
  | finite s m => signText s ++ String.ofList m.shortest.positional

/-! ## Reading -/

/-- Drops a sign at the front and says whether it was the minus. -/
def splitSign : List Char → Bool × List Char
  | '-' :: cs => (true, cs)
  | '+' :: cs => (false, cs)
  | cs => (false, cs)

namespace Decimal

/-- One more digit of an exponent.  From `65536` on the exponent has stopped growing and further digits are ignored. -/
def exponentStep (e : Nat) (c : Char) : Nat :=
  if e < 65536 then 10 * e + (c.toNat - '0'.toNat) else e

/-- What may follow the digits: nothing, or `e` and an integer. -/
def exponentOf? : List Char → Option Int
  | [] => some 0
  | c :: cs =>
    if c = 'e' ∨ c = 'E' then
      let (negative, digits) := splitSign cs
      if digits ≠ [] ∧ digits.all Char.isDigit then
        let e := digits.foldl exponentStep 0
        some (if negative then -(e : Int) else e)
      else none
    else none

/-- The places behind the point, and what follows them. -/
def splitFraction : List Char → List Char × List Char
  | '.' :: cs => (cs.takeWhile Char.isDigit, cs.dropWhile Char.isDigit)
  | cs => ([], cs)

/-- **A decimal without its sign**: digits, a point and digits, with a digit on at least one side of the point, and an
exponent. -/
def ofText? (cs : List Char) : Option Decimal :=
  let whole := cs.takeWhile Char.isDigit
  let (places, tail) := splitFraction (cs.dropWhile Char.isDigit)
  if whole ++ places = [] then none
  else (exponentOf? tail).map fun e => ⟨Nat.ofDigitChars 10 (whole ++ places) 0, e - places.length⟩

end Decimal

namespace Number

/-- The number nearest to a decimal. -/
def ofDecimal (negative : Bool) (d : Decimal) : Number := ofMagnitude? negative d.nearest?

/-- The names of the numbers that have no digits. -/
def ofName? (negative : Bool) (cs : List Char) : Option Number :=
  let name := cs.map Char.toLower
  if name = "inf".toList ∨ name = "infinity".toList then some (.infinity negative)
  else if name = "nan".toList then some (.nan negative)
  else none

/-- **The number a text stands for**, if it stands for one. -/
def ofText? (cs : List Char) : Option Number :=
  let (negative, body) := splitSign cs
  match Decimal.ofText? body with
  | some d => some (ofDecimal negative d)
  | none => ofName? negative body

end Number
end LoxExpr
