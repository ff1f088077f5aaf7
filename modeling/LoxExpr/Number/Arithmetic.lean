import LoxExpr.Number.Magnitude
/-!
# Numbers: doubles and their arithmetic

A number is a sign with a magnitude, with infinity or with `nan`.  Each operation is exact arithmetic on whole units followed
by one rounding, so its result is the double nearest to the exact one; what is too great becomes an infinity, and a zero
keeps a sign.
-/
namespace LoxExpr

/-- **A double.**  `negative` is the sign; zero and `nan` have one as well.  What else a `nan` carries is never looked at. -/
inductive Number where
  | nan (negative : Bool)
  | infinity (negative : Bool)
  | finite (negative : Bool) (magnitude : Magnitude)
deriving DecidableEq, Inhabited

namespace Number

/-- A magnitude under a sign; what has none is too great for one. -/
def ofMagnitude? (negative : Bool) : Option Magnitude → Number
  | some m => finite negative m
  | none => infinity negative

/-- The double nearest to `num / den` units, under a sign. -/
def nearest (negative : Bool) (num den : Nat) : Number := ofMagnitude? negative (Magnitude.nearest? num den)

/-- The exact value of a finite number in units. -/
def signedUnits (negative : Bool) (m : Magnitude) : Int :=
  if negative then -(m.units : Int) else m.units

/-- Whether the sign is the minus. -/
def isNegative : Number → Bool
  | nan s => s
  | infinity s => s
  | finite s _ => s

def isFinite : Number → Bool
  | finite _ _ => true
  | _ => false

/-! ## Arithmetic

Which sign the `nan` of a sum, a product or a quotient has is left open by the arithmetic of doubles, and no text of a value
shows it.  Here it is the plus.
-/

/-- Negation changes the sign and nothing else. -/
def neg : Number → Number
  | nan s => nan !s
  | infinity s => infinity !s
  | finite s m => finite (!s) m

/-- A sum that is exactly zero is negative only when both operands are. -/
def add : Number → Number → Number
  | nan _, _ => nan false
  | _, nan _ => nan false
  | infinity s, infinity t => if s = t then infinity s else nan false
  | infinity s, finite _ _ => infinity s
  | finite _ _, infinity t => infinity t
  | finite s a, finite t b =>
    let sum := signedUnits s a + signedUnits t b
    if sum = 0 then finite (s && t) Magnitude.zero else nearest (decide (sum < 0)) sum.natAbs 1

def sub (x y : Number) : Number := add x (neg y)

/-- A product of two unit counts counts units of `2 ^ -2148`. -/
def mul : Number → Number → Number
  | nan _, _ => nan false
  | _, nan _ => nan false
  | infinity s, infinity t => infinity (s != t)
  | infinity s, finite t b => if b.units = 0 then nan false else infinity (s != t)
  | finite s a, infinity t => if a.units = 0 then nan false else infinity (s != t)
  | finite s a, finite t b => nearest (s != t) (a.units * b.units) (1 <<< 1074)

def div : Number → Number → Number
  | nan _, _ => nan false
  | _, nan _ => nan false
  | infinity _, infinity _ => nan false
  | infinity s, finite t _ => infinity (s != t)
  | finite s _, infinity t => finite (s != t) Magnitude.zero
  | finite s a, finite t b =>
    if b.units = 0 then if a.units = 0 then nan false else infinity (s != t)
    else nearest (s != t) (a.units <<< 1074) b.units

/-! ## Comparison -/

/-- The order of two numbers; a `nan` stands in none, and the two zeros are equal. -/
def compare? : Number → Number → Option Ordering
  | nan _, _ => none
  | _, nan _ => none
  | infinity s, infinity t => some (if s = t then .eq else if s then .lt else .gt)
  | infinity s, finite _ _ => some (if s then .lt else .gt)
  | finite _ _, infinity t => some (if t then .gt else .lt)
  | finite s a, finite t b => some (compare (signedUnits s a) (signedUnits t b))

/-- Equality as the language sees it: a `nan` differs from itself. -/
def equals (x y : Number) : Bool := x.compare? y == some .eq

def less (x y : Number) : Bool := x.compare? y == some .lt

def lessEqual (x y : Number) : Bool := x.less y || x.equals y

theorem neg_neg (x : Number) : x.neg.neg = x := by
  cases x <;> simp [neg]

theorem isNegative_neg (x : Number) : x.neg.isNegative = !x.isNegative := by
  cases x <;> rfl

theorem isFinite_neg (x : Number) : x.neg.isFinite = x.isFinite := by
  cases x <;> rfl

/-! ## The 64-bit pattern -/

/-- The sign as the top bit of a pattern. -/
def signBit (negative : Bool) : Nat := if negative then 0x8000000000000000 else 0

/-- The 64-bit pattern; a `nan` has only the top bit of the fraction set. -/
def toBits : Number → Nat
  | nan s => signBit s + 0x7ff8000000000000
  | infinity s => signBit s + 0x7ff0000000000000
  | finite s m => signBit s + m.index

/-- The number with a given 64-bit pattern. -/
def ofBits (bits : Nat) : Number :=
  let negative := decide (0x8000000000000000 ≤ bits)
  let low := bits % 0x8000000000000000
  if h : low < 0x7ff0000000000000 then finite negative ⟨low, h⟩
  else if low = 0x7ff0000000000000 then infinity negative
  else nan negative

/-- A number is recovered from its pattern. -/
theorem ofBits_toBits (x : Number) : ofBits x.toBits = x := by
  cases x with
  | nan s => cases s <;> decide
  | infinity s => cases s <;> decide
  | finite s m =>
    obtain ⟨i, hi⟩ := m
    cases s
    · have : i % 0x8000000000000000 = i := by omega
      have h' : ¬ 0x8000000000000000 ≤ i := by omega
      simp [ofBits, toBits, signBit, this, hi, h']
    · have : (0x8000000000000000 + i) % 0x8000000000000000 = i := by omega
      simp [ofBits, toBits, signBit, this, hi]

end Number
end LoxExpr
