import LoxExpr.Proofs.Rounding
/-!
# The shortest decimal of a magnitude

The search for a decimal that stands for a magnitude asks two points of each grid, and begins at `topExponent`.  Neither loses
anything: if any point of a grid stands for the magnitude then one of the two next to its value does (`onGrid?_isSome`), and
no point of a coarser grid stands for it (`exponent_le_topExponent`).  So the decimal that is found has the greatest exponent
of all that stand for the magnitude (`exponent_le_shortest`), and from there on it is the order of decimals alone: it has no
zero at its end, and no other has fewer digits (`length_digits_shortest_le`).
-/
namespace LoxExpr
namespace Magnitude

open Decimal (tenNum tenDen tenDen_pos)

section
variable {m : Magnitude} {d : Decimal} {p : Int} {c : Nat}

/-! ## One grid -/

theorem nearestIndex_units (m : Magnitude) : nearestIndex m.units 1 = m.index :=
  nearest?_eq_some_iff.1 (m.units.mul_one ▸ m.nearest?_units 1 Nat.one_pos)

theorem index_le_of_le_units (h : (d.coefficient * tenNum d.exponent) <<< 1074 ≤ m.units * tenDen d.exponent) :
    d.index ≤ m.index := by
  rw [← nearestIndex_units]
  exact nearestIndex_mono (tenDen_pos _) Nat.one_pos (by rwa [Nat.mul_one])

theorem le_index_of_units_le (h : m.units * tenDen d.exponent ≤ (d.coefficient * tenNum d.exponent) <<< 1074) :
    m.index ≤ d.index := by
  rw [← nearestIndex_units]
  exact nearestIndex_mono Nat.one_pos (tenDen_pos _) (by rwa [Nat.mul_one])

theorem mul_shiftLeft (a b k : Nat) : (a * b) <<< k = a * b <<< k := by
  rw [Nat.shiftLeft_eq, Nat.shiftLeft_eq, Nat.mul_assoc]

/-- **Of the points of a grid that stand for a magnitude, one is next to its value.** -/
theorem onGrid?_isSome (h : (⟨c, p⟩ : Decimal).nearest? = some m) : (m.onGrid? p).isSome = true := by
  let q := m.units * tenDen p / (tenNum p <<< 1074)
  have hindex : (⟨c, p⟩ : Decimal).index = m.index := Decimal.nearest?_eq_some_iff.1 h
  have hpos : 0 < tenNum p <<< 1074 := Nat.shiftLeft_pos_iff.2 (Nat.pow_pos (by decide))
  -- the points up to `c` and from `c` on are rounded on either side of the magnitude
  have hneighbour : (⟨q, p⟩ : Decimal).nearest? = some m ∨ (⟨q + 1, p⟩ : Decimal).nearest? = some m := by
    have hmono : ∀ a b : Nat, a ≤ b → (⟨a, p⟩ : Decimal).index ≤ (⟨b, p⟩ : Decimal).index := fun a b hab =>
      Decimal.index_mono (Decimal.value_mono hab (Int.le_refl p))
    rcases Nat.lt_or_ge q c with hc | hc
    · have habove : m.index ≤ (⟨q + 1, p⟩ : Decimal).index := by
        refine le_index_of_units_le ?_
        rw [mul_shiftLeft]
        exact Nat.le_of_lt ((Nat.div_lt_iff_lt_mul hpos).1 (Nat.lt_succ_self q))
      exact .inr (Decimal.nearest?_eq_some_iff.2 (Nat.le_antisymm (hindex ▸ hmono (q + 1) c hc) habove))
    · have hbelow : (⟨q, p⟩ : Decimal).index ≤ m.index := by
        refine index_le_of_le_units ?_
        rw [mul_shiftLeft]
        exact Nat.div_mul_le_self _ _
      exact .inl (Decimal.nearest?_eq_some_iff.2 (Nat.le_antisymm hbelow (hindex ▸ hmono c q hc)))
  unfold onGrid?
  rw [List.find?_isSome]
  rcases hneighbour with hq | hq
  · exact ⟨⟨q, p⟩, by split_ifs <;> simp [q], isNearestTo_iff.2 hq⟩
  · exact ⟨⟨q + 1, p⟩, by split_ifs <;> simp [q], isNearestTo_iff.2 hq⟩

theorem exponent_of_onGrid? (h : m.onGrid? p = some d) : d.exponent = p := by
  have hmem := List.mem_of_find?_eq_some h
  split_ifs at hmem <;> simp at hmem <;> rcases hmem with rfl | rfl <;> rfl

/-! ## All grids from the top -/

/-- The search stops at the first grid with a point for the magnitude. -/
theorem exponent_search (m : Magnitude) (n : Nat) (p : Int) (hp : p + 1074 = n) :
    (m.search p n).exponent ≤ p ∧ ∀ q, (m.search p n).exponent < q → q ≤ p → m.onGrid? q = none := by
  induction n generalizing p with
  | zero =>
    have he : (m.search p 0).exponent = -1074 := rfl
    exact ⟨by omega, fun q hq hle => by omega⟩
  | succ n ih =>
    rw [search]
    cases h : m.onGrid? p with
    | some d =>
      rw [Option.getD_some, exponent_of_onGrid? h]
      exact ⟨Int.le_refl p, fun q hq hle => by omega⟩
    | none =>
      rw [Option.getD_none]
      obtain ⟨hle, hnone⟩ := ih (p - 1) (by omega)
      refine ⟨by omega, fun q hq hqp => ?_⟩
      rcases hqp.lt_or_eq with hlt | rfl
      · exact hnone q hq (by omega)
      · exact h

/-! ## No grid above the top -/

theorem nearestIndex_two_pow (k : Nat) : nearestIndex (2 ^ k) 1 = (k - 52) * 0x10000000000000 + 2 ^ min k 52 := by
  have hshift : shiftOf (2 ^ k) 1 = k - 52 := by
    rw [shiftOf, Nat.div_one, Nat.log2_two_pow]
  have hsplit : 2 ^ k = 2 ^ min k 52 * (1 <<< (k - 52)) := by
    rw [Nat.one_shiftLeft, ← Nat.pow_add]
    congr 1
    omega
  unfold nearestIndex
  rw [hshift]
  conv_lhs => rw [hsplit]
  rw [roundHalfEven_mul _ _ (Nat.shiftLeft_pos_iff.2 Nat.one_pos)]

/-- Two powers of two are never rounded to the same magnitude. -/
theorem nearestIndex_two_pow_lt (k : Nat) : nearestIndex (2 ^ k) 1 < nearestIndex (2 ^ (k + 1)) 1 := by
  rw [nearestIndex_two_pow, nearestIndex_two_pow]
  rcases Nat.lt_or_ge k 52 with hk | hk
  · have hlt : 2 ^ min k 52 < 2 ^ min (k + 1) 52 := Nat.pow_lt_pow_right (by decide) (by omega)
    have hzero : k - 52 = 0 := by omega
    rw [hzero]
    omega
  · have hmin : min k 52 = 52 := by omega
    have hmin' : min (k + 1) 52 = 52 := by omega
    rw [hmin, hmin']
    omega

theorem log2_units_lt (m : Magnitude) : m.units.log2 < 2098 := by
  have hlog := m.log2_units
  have hle := m.shift_le
  omega

/-- The power of ten that the search leaves out first is at least four times the leading bit of the value. -/
theorem two_pow_le_ten_pow : ∀ b ∈ List.range 2098, 2 ^ (b + 2) * tenDen (((b : Int) - 1074) * 30103 / 100000 + 2) ≤
    tenNum (((b : Int) - 1074) * 30103 / 100000 + 2) <<< 1074 := by
  decide +kernel

theorem nearestIndex_le_index_tenPow (h : c * tenDen p ≤ tenNum p <<< 1074) : nearestIndex c 1 ≤ (⟨1, p⟩ : Decimal).index := by
  refine nearestIndex_mono Nat.one_pos (tenDen_pos p) ?_
  rwa [Nat.mul_one, Nat.one_mul]

theorem coefficient_ne_zero (hm : m.index ≠ 0) (h : d.nearest? = some m) : d.coefficient ≠ 0 := by
  intro hc
  rw [Decimal.nearest?_eq_some_iff] at h
  refine hm (Nat.le_zero.1 ?_)
  rw [← h, show (0 : Nat) = zero.index from rfl]
  refine index_le_of_le_units ?_
  rw [hc, Nat.zero_mul, Nat.zero_shiftLeft]
  exact Nat.zero_le _

/-- **No grid above the top has a point for the magnitude.** -/
theorem exponent_le_topExponent (hm : m.index ≠ 0) (h : d.nearest? = some m) : d.exponent ≤ m.topExponent := by
  by_contra hgt
  have hgt : m.topExponent + 1 ≤ d.exponent := by omega
  have hone : (⟨1, m.topExponent + 1⟩ : Decimal).value ≤ d.value :=
    Decimal.value_mono (Nat.pos_of_ne_zero (coefficient_ne_zero hm h)) hgt
  have htop : m.topExponent + 1 = ((m.units.log2 : Int) - 1074) * 30103 / 100000 + 2 := by
    unfold topExponent
    omega
  -- two powers of two stand between the value and that point, so they would be rounded to the same magnitude
  have hhigh : nearestIndex (2 ^ (m.units.log2 + 2)) 1 ≤ (⟨1, m.topExponent + 1⟩ : Decimal).index :=
    nearestIndex_le_index_tenPow (htop ▸ two_pow_le_ten_pow _ (List.mem_range.2 m.log2_units_lt))
  have hlow : m.index ≤ nearestIndex (2 ^ (m.units.log2 + 1)) 1 := by
    rw [← nearestIndex_units]
    exact nearestIndex_mono Nat.one_pos Nat.one_pos (by rw [Nat.mul_one, Nat.mul_one]; exact Nat.le_of_lt Nat.lt_log2_self)
  have hlt := nearestIndex_two_pow_lt (m.units.log2 + 1)
  have hle : (⟨1, m.topExponent + 1⟩ : Decimal).index ≤ m.index :=
    (Decimal.index_mono hone).trans_eq (Decimal.nearest?_eq_some_iff.1 h)
  exact Nat.lt_irrefl _ (calc m.index ≤ nearestIndex (2 ^ (m.units.log2 + 1)) 1 := hlow
    _ < nearestIndex (2 ^ (m.units.log2 + 2)) 1 := hlt
    _ ≤ (⟨1, m.topExponent + 1⟩ : Decimal).index := hhigh
    _ ≤ m.index := hle)

/-! ## The shortest decimal -/

/-- **Of the decimals that stand for a magnitude the shortest has the greatest exponent.** -/
theorem exponent_le_shortest (hm : m.index ≠ 0) (h : d.nearest? = some m) : d.exponent ≤ m.shortest.exponent := by
  have hshortest : m.shortest = m.search m.topExponent (m.topExponent + 1074).toNat := if_neg hm
  have hrange : m.topExponent + 1074 = ((m.topExponent + 1074).toNat : Int) := by
    unfold topExponent
    omega
  obtain ⟨-, hnone⟩ := m.exponent_search _ _ hrange
  rw [← hshortest] at hnone
  by_contra hgt
  have hno := hnone d.exponent (by omega) (exponent_le_topExponent hm h)
  have hsome := onGrid?_isSome (c := d.coefficient) (p := d.exponent) h
  rw [hno] at hsome
  cases hsome

theorem value_tens (k : Nat) (e : Int) : (⟨10 * k, e⟩ : Decimal).value = (⟨k, e + 1⟩ : Decimal).value := by
  simp only [Decimal.value, Nat.cast_mul, Nat.cast_ofNat, zpow_add_one₀ (by norm_num : (10 : ℚ) ≠ 0)]
  ring

/-- No point of the next coarser grid stands for the magnitude. -/
theorem not_nearest?_tens (hm : m.index ≠ 0) (k : Nat) : (⟨10 * k, m.shortest.exponent⟩ : Decimal).nearest? ≠ some m := by
  intro h
  have hle := exponent_le_shortest hm ((Decimal.nearest?_congr (value_tens k _)).1 h)
  exact absurd hle (by simp)

/-- **The shortest decimal has no zero at its end.** -/
theorem not_ten_dvd_shortest (hm : m.index ≠ 0) : ¬ 10 ∣ m.shortest.coefficient := by
  rintro ⟨k, hk⟩
  exact not_nearest?_tens hm k (hk ▸ m.nearest?_shortest)

/-- **No decimal that stands for a magnitude has fewer digits than the shortest one.** -/
theorem length_digits_shortest_le (h : d.nearest? = some m) :
    (Nat.toDigits 10 m.shortest.coefficient).length ≤ (Nat.toDigits 10 d.coefficient).length := by
  by_cases hm : m.index = 0
  · have hshortest : m.shortest = ⟨0, 0⟩ := if_pos hm
    rw [hshortest]
    exact Nat.length_toDigits_pos
  · -- otherwise a power of ten stands between the two, and it is a point of a coarser grid
    by_contra hlt
    have hpos : 0 < (Nat.toDigits 10 d.coefficient).length := Nat.length_toDigits_pos
    obtain ⟨j, hj⟩ : ∃ j, (Nat.toDigits 10 d.coefficient).length = j + 1 := ⟨_, (Nat.succ_pred_eq_of_pos hpos).symm⟩
    have hless : d.coefficient < 10 ^ (j + 1) := (Nat.length_toDigits_le_iff (by decide) (Nat.succ_pos j)).1 (Nat.le_of_eq hj)
    have hmore : 10 ^ (j + 1) ≤ m.shortest.coefficient := by
      by_contra hfew
      have := (Nat.length_toDigits_le_iff (b := 10) (by decide) (Nat.succ_pos j)).2 (Nat.lt_of_not_le hfew)
      omega
    have hten : (⟨10 * 10 ^ j, m.shortest.exponent⟩ : Decimal).nearest? = some m := by
      have hpow : 10 * 10 ^ j = 10 ^ (j + 1) := by ring
      rw [hpow]
      exact Decimal.nearest?_of_between h m.nearest?_shortest
        (Decimal.value_mono (Nat.le_of_lt hless) (exponent_le_shortest hm h))
        (Decimal.value_mono hmore (Int.le_refl _))
    exact not_nearest?_tens hm _ hten

end
end Magnitude
end LoxExpr
