import LoxExpr.Number.Magnitude
/-!
# Decimals, and the shortest one for a magnitude

A decimal is a coefficient and a power of ten.  `Decimal.nearest?` is the magnitude it stands for; `Magnitude.shortest` goes
the other way and takes, of all decimals that stand for a magnitude, one with the fewest digits, and of those the nearest.

The search walks the decimal grids (the multiples of `10 ^ p`) from coarse to fine.  On each grid only the two neighbours of
the value can stand for it, and the first grid where one of them does is the answer: a decimal with fewer digits would have
been a point of an earlier grid.  It ends at the latest with the multiples of `10 ^ -1074`, of which every magnitude is one.
-/
namespace LoxExpr

/-- The number `coefficient * 10 ^ exponent`. -/
structure Decimal where
  coefficient : Nat
  exponent : Int
deriving DecidableEq

namespace Decimal

/-- The numerator of `10 ^ e`. -/
def tenNum (e : Int) : Nat := Nat.pow 10 e.toNat

/-- The denominator of `10 ^ e`. -/
def tenDen (e : Int) : Nat := Nat.pow 10 (-e).toNat

/-- The magnitude nearest to a decimal; nothing when it is too great for one. -/
def nearest? (d : Decimal) : Option Magnitude :=
  Magnitude.nearest? ((d.coefficient * tenNum d.exponent) <<< 1074) (tenDen d.exponent)

/-- **Positional notation**: all the digits down to the units, then, if there are places below, a point and exactly those
places. -/
def positional (d : Decimal) : List Char :=
  let digits := Nat.toDigits 10 d.coefficient
  if 0 ≤ d.exponent then digits ++ List.replicate d.exponent.toNat '0'
  else
    let places := (-d.exponent).toNat
    let padded := List.replicate (places + 1 - digits.length) '0' ++ digits
    padded.take (padded.length - places) ++ '.' :: padded.drop (padded.length - places)

end Decimal

namespace Magnitude

/-- A decimal stands for a magnitude when it is read back as that magnitude. -/
def isNearestTo (m : Magnitude) (d : Decimal) : Bool := d.nearest? == some m

/-- **The point of the grid of `10 ^ p` that stands for `m`**, if there is one: of the neighbours below and above, the nearer
is asked first, and the one above when they are equally near. -/
def onGrid? (m : Magnitude) (p : Int) : Option Decimal :=
  let num := m.units * Decimal.tenDen p
  let den := Decimal.tenNum p <<< 1074
  let below : Decimal := ⟨num / den, p⟩
  let above : Decimal := ⟨num / den + 1, p⟩
  (if 2 * (num % den) < den then [below, above] else [above, below]).find? m.isNearestTo

/-- The exact value of a magnitude as a decimal. -/
def exactDecimal (m : Magnitude) : Decimal := ⟨m.units * Nat.pow 5 1074, -1074⟩

/-- An exponent that no grid with a point for `m` exceeds.  A value of at least `2 ^ b` and less than `2 ^ (b + 1)` units
stands for no power of ten beyond `3 * 2 ^ (b - 1074)`, and `2` is a little less than `10 ^ 0.30103`. -/
def topExponent (m : Magnitude) : Int := ((m.units.log2 : Int) - 1074) * 30103 / 100000 + 1

/-- The search on the grids of `10 ^ p` and the `n - 1` next finer ones. -/
def search (m : Magnitude) (p : Int) : Nat → Decimal
  | 0 => m.exactDecimal
  | n + 1 => (m.onGrid? p).getD (m.search (p - 1) n)

/-- **The shortest decimal of a magnitude.** -/
def shortest (m : Magnitude) : Decimal :=
  if m.index = 0 then ⟨0, 0⟩ else m.search m.topExponent (m.topExponent + 1074).toNat

end Magnitude
end LoxExpr
