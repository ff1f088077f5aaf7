import LoxExpr.Proofs.NumberText
import Mathlib.Data.Nat.Log
import Mathlib.Data.Rat.Cast.Order
import Mathlib.Tactic.Positivity
/-!
# Rounding: it keeps the order

Rounding to a magnitude never exchanges two values: a greater fraction of units has no smaller index
(`Magnitude.nearestIndex_mono`).  Within one shift this is the order of the rounded quotients, and the indices of one shift lie
below those of the next.  So what is rounded to one magnitude has no gaps: between two decimals that stand for a magnitude,
all do (`Decimal.nearest?_of_between`).
-/
namespace LoxExpr

/-! ## Quotients -/

section
variable {num den num' den' : Nat}

theorem le_roundHalfEven (num den : Nat) : num / den ≤ roundHalfEven num den := by
  unfold roundHalfEven
  dsimp only
  split_ifs <;> omega

theorem roundHalfEven_le (num den : Nat) : roundHalfEven num den ≤ num / den + 1 := by
  unfold roundHalfEven
  dsimp only
  split_ifs <;> omega

theorem div_le_div_of_cross (hden : 0 < den) (hden' : 0 < den') (h : num * den' ≤ num' * den) : num / den ≤ num' / den' := by
  rw [Nat.le_div_iff_mul_le hden']
  refine Nat.le_of_mul_le_mul_right ?_ hden
  calc num / den * den' * den = num / den * den * den' := Nat.mul_right_comm _ _ _
    _ ≤ num * den' := Nat.mul_le_mul_right _ (Nat.div_mul_le_self num den)
    _ ≤ num' * den := h

theorem shiftLeft_cross (k : Nat) (h : num * den' ≤ num' * den) : num <<< k * den' ≤ num' <<< k * den := by
  rw [Nat.shiftLeft_eq, Nat.shiftLeft_eq, Nat.mul_right_comm, Nat.mul_right_comm num']
  exact Nat.mul_le_mul_right _ h

/-- Of two fractions with the same whole part the greater one has the greater remainder. -/
theorem mod_cross_of_div_eq (h : num * den' ≤ num' * den) (hq : num / den = num' / den') :
    num % den * den' ≤ num' % den' * den := by
  rw [← Nat.div_add_mod num den, ← Nat.div_add_mod num' den', hq, Nat.add_mul, Nat.add_mul] at h
  have hsame : den * (num' / den') * den' = den' * (num' / den') * den := by
    rw [Nat.mul_right_comm, Nat.mul_comm den den', Nat.mul_right_comm]
  omega

/-- **Rounding to an integer keeps the order.** -/
theorem roundHalfEven_mono (hden : 0 < den) (hden' : 0 < den') (h : num * den' ≤ num' * den) :
    roundHalfEven num den ≤ roundHalfEven num' den' := by
  rcases (div_le_div_of_cross hden hden' h).lt_or_eq with hq | hq
  · have hle := roundHalfEven_le num den
    have hge := le_roundHalfEven num' den'
    omega
  · have hmod := mod_cross_of_div_eq h hq
    unfold roundHalfEven
    dsimp only
    rw [hq]
    -- where the first fraction reaches half of one, so does the second
    rcases Nat.lt_trichotomy (2 * (num % den)) den with hlow | htie | hhigh
    · rw [if_pos hlow]
      split_ifs <;> omega
    · have hhalf : den' ≤ 2 * (num' % den') := by
        refine Nat.le_of_mul_le_mul_left ?_ hden
        calc den * den' = 2 * (num % den * den') := by rw [← Nat.mul_assoc, htie]
          _ ≤ 2 * (num' % den' * den) := Nat.mul_le_mul_left 2 hmod
          _ = den * (2 * (num' % den')) := by ring
      split_ifs <;> omega
    · have hhalf : den' < 2 * (num' % den') := by
        refine Nat.lt_of_mul_lt_mul_left (a := den) ?_
        calc den * den' < 2 * (num % den) * den' := Nat.mul_lt_mul_of_pos_right hhigh hden'
          _ = 2 * (num % den * den') := Nat.mul_assoc _ _ _
          _ ≤ 2 * (num' % den' * den) := Nat.mul_le_mul_left 2 hmod
          _ = den * (2 * (num' % den')) := by ring
      split_ifs <;> omega

end

/-! ## Magnitudes -/

namespace Magnitude

/-- The shift that the significand of a quotient gets. -/
def shiftOf (num den : Nat) : Nat := (num / den).log2 - 52

/-- **The index that a fraction of units is rounded to**, also where it is too great for a magnitude. -/
def nearestIndex (num den : Nat) : Nat :=
  shiftOf num den * 0x10000000000000 + roundHalfEven num (den <<< shiftOf num den)

section
variable {num den num' den' : Nat} {m : Magnitude}

theorem nearest?_eq_some_iff : Magnitude.nearest? num den = some m ↔ nearestIndex num den = m.index := by
  unfold Magnitude.nearest? nearestIndex shiftOf
  dsimp only
  constructor
  · intro h
    split at h
    · cases h
      rfl
    · cases h
  · intro h
    have hlt := m.index_lt
    rw [← h] at hlt
    rw [dif_pos hlt]
    exact congrArg some (ext_index h)

theorem shiftOf_mono (h : num / den ≤ num' / den') : shiftOf num den ≤ shiftOf num' den' := by
  unfold shiftOf
  rw [Nat.log2_eq_log_two, Nat.log2_eq_log_two]
  exact Nat.sub_le_sub_right (Nat.log_mono_right h) 52

/-- A significand has at most 53 bits, or it is the next power of two. -/
theorem roundHalfEven_shiftOf_le (num : Nat) (hden : 0 < den) :
    roundHalfEven num (den <<< shiftOf num den) ≤ 0x20000000000000 := by
  have hnum : num ≤ 2 ^ 53 * (den <<< shiftOf num den) := by
    have hlog : num / den < 2 ^ (53 + shiftOf num den) :=
      Nat.lt_of_lt_of_le Nat.lt_log2_self (Nat.pow_le_pow_right (by decide) (by unfold shiftOf; omega))
    have hlt := (Nat.div_lt_iff_lt_mul hden).1 hlog
    rw [Nat.shiftLeft_eq]
    calc num ≤ 2 ^ (53 + shiftOf num den) * den := Nat.le_of_lt hlt
      _ = 2 ^ 53 * (den * 2 ^ shiftOf num den) := by rw [Nat.pow_add]; ring
  have hround : roundHalfEven num (den <<< shiftOf num den) ≤ roundHalfEven (2 ^ 53) 1 :=
    roundHalfEven_mono (Nat.shiftLeft_pos_iff.2 hden) Nat.one_pos (by rwa [Nat.mul_one])
  rwa [roundHalfEven_one] at hround

/-- Under a shift a significand has at least 53 bits. -/
theorem le_roundHalfEven_shiftOf (hshift : 0 < shiftOf num den) :
    0x10000000000000 ≤ roundHalfEven num (den <<< shiftOf num den) := by
  refine Nat.le_trans ?_ (le_roundHalfEven _ _)
  have hlog : (num / den).log2 = 52 + shiftOf num den := by
    unfold shiftOf at *
    omega
  have hne : num / den ≠ 0 := fun h0 => by
    rw [h0] at hlog
    have : 0 = 52 + shiftOf num den := hlog
    omega
  rw [Nat.shiftLeft_eq, ← Nat.div_div_eq_div_mul, Nat.le_div_iff_mul_le (Nat.two_pow_pos _)]
  have hself := Nat.log2_self_le hne
  rw [hlog, Nat.pow_add] at hself
  exact hself

/-- **Rounding to a magnitude keeps the order.** -/
theorem nearestIndex_mono (hden : 0 < den) (hden' : 0 < den') (h : num * den' ≤ num' * den) :
    nearestIndex num den ≤ nearestIndex num' den' := by
  unfold nearestIndex
  rcases (shiftOf_mono (div_le_div_of_cross hden hden' h)).lt_or_eq with hlt | heq
  · -- all indices of a shift lie below those of the next
    have hlow := roundHalfEven_shiftOf_le num hden
    have hhigh := le_roundHalfEven_shiftOf (Nat.lt_of_le_of_lt (Nat.zero_le _) hlt)
    have hstep : (shiftOf num den + 1) * 0x10000000000000 ≤ shiftOf num' den' * 0x10000000000000 :=
      Nat.mul_le_mul_right _ hlt
    omega
  · rw [heq]
    refine Nat.add_le_add_left (roundHalfEven_mono (Nat.shiftLeft_pos_iff.2 hden) (Nat.shiftLeft_pos_iff.2 hden') ?_) _
    rw [Nat.shiftLeft_eq, Nat.shiftLeft_eq, ← Nat.mul_assoc, ← Nat.mul_assoc]
    exact Nat.mul_le_mul_right _ h

end
end Magnitude

/-! ## Decimals -/

namespace Decimal

def value (d : Decimal) : ℚ := d.coefficient * 10 ^ d.exponent

/-- The index that a decimal is rounded to. -/
def index (d : Decimal) : Nat :=
  Magnitude.nearestIndex ((d.coefficient * tenNum d.exponent) <<< 1074) (tenDen d.exponent)

theorem tenDen_pos (e : Int) : 0 < tenDen e := Nat.pow_pos (by decide)

theorem tenNum_div_tenDen (e : Int) : (tenNum e : ℚ) / tenDen e = 10 ^ e := by
  obtain ⟨n, rfl | rfl⟩ := e.eq_nat_or_neg
  · have hnum : tenNum n = 10 ^ n := rfl
    have hden : tenDen n = 1 := by simp [tenDen]
    rw [hnum, hden, zpow_natCast]
    simp
  · have hnum : tenNum (-n) = 1 := by simp [tenNum]
    have hden : tenDen (-n) = 10 ^ n := by simp [tenDen]
    rw [hnum, hden, zpow_neg, zpow_natCast]
    simp

theorem value_eq (d : Decimal) : d.value = (d.coefficient * tenNum d.exponent : ℕ) / (tenDen d.exponent : ℚ) := by
  rw [value, ← tenNum_div_tenDen, Nat.cast_mul, mul_div_assoc]

section
variable {m : Magnitude} {d d' x : Decimal} {c c' : Nat} {e e' : Int}

theorem value_mono (hc : c ≤ c') (he : e ≤ e') : (⟨c, e⟩ : Decimal).value ≤ (⟨c', e'⟩ : Decimal).value := by
  have hten : (10 : ℚ) ^ e ≤ 10 ^ e' := zpow_le_zpow_right₀ (by norm_num) he
  show (c : ℚ) * 10 ^ e ≤ c' * 10 ^ e'
  exact mul_le_mul (Nat.cast_le.2 hc) hten (zpow_nonneg (by norm_num) e) (Nat.cast_nonneg c')

theorem nearest?_eq_some_iff : d.nearest? = some m ↔ d.index = m.index := Magnitude.nearest?_eq_some_iff

theorem index_mono (h : d.value ≤ d'.value) : d.index ≤ d'.index := by
  have hden : (0 : ℚ) < tenDen d.exponent := Nat.cast_pos.2 (tenDen_pos _)
  have hden' : (0 : ℚ) < tenDen d'.exponent := Nat.cast_pos.2 (tenDen_pos _)
  rw [value_eq, value_eq, div_le_div_iff₀ hden hden', ← Nat.cast_mul, ← Nat.cast_mul, Nat.cast_le] at h
  exact Magnitude.nearestIndex_mono (tenDen_pos _) (tenDen_pos _) (shiftLeft_cross 1074 h)

theorem nearest?_congr (h : d.value = d'.value) : d.nearest? = some m ↔ d'.nearest? = some m := by
  rw [nearest?_eq_some_iff, nearest?_eq_some_iff, Nat.le_antisymm (index_mono h.le) (index_mono h.ge)]

/-- **Between two decimals that stand for a magnitude, all do.** -/
theorem nearest?_of_between (hd : d.nearest? = some m) (hd' : d'.nearest? = some m) (hx : d.value ≤ x.value)
    (hx' : x.value ≤ d'.value) : x.nearest? = some m := by
  rw [nearest?_eq_some_iff] at hd hd' ⊢
  exact Nat.le_antisymm (hd' ▸ index_mono hx') (hd ▸ index_mono hx)

end
end Decimal
end LoxExpr
