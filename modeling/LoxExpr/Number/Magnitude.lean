/-!
# Magnitudes: the finite non-negative doubles

A finite double without its sign is an integer significand below `2 ^ 53` times a power of two, the smallest of which is
`2 ^ -1074`, the *unit*.  Listed in increasing order the magnitudes are numbered without a gap, and the number of a
magnitude (its `index`) is the pattern of its 63 low bits; so the index is all that is stored, and equality and order of
magnitudes are those of their indices.  `units` is the value: how many units a magnitude is worth.

`Magnitude.nearest?` is the one place where anything is rounded: every operation and every reader hands it an exact
fraction of units.
-/
namespace LoxExpr

/-- **A finite non-negative double**, by its place in the increasing order of all of them. -/
structure Magnitude where
  index : Nat
  index_lt : index < 0x7ff0000000000000
deriving DecidableEq

namespace Magnitude

/-- Zero is the first magnitude. -/
def zero : Magnitude := ⟨0, by decide⟩

instance : Inhabited Magnitude := ⟨zero⟩

/-- The power of two, in units, by which the significand counts.  It rises after every `2 ^ 52` indices, except after the
first ones. -/
def shift (m : Magnitude) : Nat := m.index / 0x10000000000000 - 1

/-- The integer counted; it is at least `2 ^ 52` whenever the shift is positive. -/
def significand (m : Magnitude) : Nat := m.index - m.shift * 0x10000000000000

/-- The value, counted in units. -/
def units (m : Magnitude) : Nat := m.significand <<< m.shift

theorem ext_index {a b : Magnitude} (h : a.index = b.index) : a = b := by
  cases a; cases b; cases h; rfl

theorem significand_lt (m : Magnitude) : m.significand < 0x20000000000000 := by
  unfold significand shift; omega

theorem le_significand (m : Magnitude) (h : 0 < m.shift) : 0x10000000000000 ≤ m.significand := by
  unfold significand shift at *; omega

theorem shift_le (m : Magnitude) : m.shift ≤ 2045 := by
  have := m.index_lt
  unfold shift; omega

/-- The index is recovered from the significand and the shift. -/
theorem index_eq (m : Magnitude) : m.index = m.shift * 0x10000000000000 + m.significand := by
  unfold significand shift; omega

end Magnitude

/-! ## Rounding -/

/-- The integer nearest to `num / den`; of two that are equally near, the even one. -/
def roundHalfEven (num den : Nat) : Nat :=
  let q := num / den
  let r := num % den
  if 2 * r < den then q
  else if den < 2 * r then q + 1
  else q + q % 2

theorem roundHalfEven_one (n : Nat) : roundHalfEven n 1 = n := by
  simp [roundHalfEven, Nat.mod_one]

/-- A multiple of the denominator is not rounded. -/
theorem roundHalfEven_mul (n den : Nat) (h : 0 < den) : roundHalfEven (n * den) den = n := by
  simp [roundHalfEven, Nat.mul_div_cancel _ h, h]

/-- **The magnitude nearest to `num / den` units**, a tie going to the even significand, and nothing when that lies beyond
the greatest one.  The quotient keeps its 53 leading bits; a significand that rounds up to `2 ^ 53` is the next index like
any other. -/
def Magnitude.nearest? (num den : Nat) : Option Magnitude :=
  let shift := (num / den).log2 - 52
  let index := shift * 0x10000000000000 + roundHalfEven num (den <<< shift)
  if h : index < 0x7ff0000000000000 then some ⟨index, h⟩ else none

end LoxExpr
