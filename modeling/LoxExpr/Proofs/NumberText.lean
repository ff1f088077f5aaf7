import LoxExpr.Number.Text
import Mathlib.Data.List.TakeWhile
import Mathlib.Tactic.Ring
/-!
# The text of a number is read back as that number

A magnitude is the nearest one to its own value, whatever the fraction that value is written as (`nearest?_units`).  So the
exact decimal of a magnitude stands for it, and so does every decimal that the search for the shortest one can end with
(`nearest?_shortest`).  In positional notation a decimal is a *numeral*, digits with or without a point among them
(`exists_numeral`), and a numeral is read as the decimal of its digits (`Numeral.ofText?_text`).
-/
namespace LoxExpr

/-! ## Magnitudes -/

namespace Magnitude

theorem units_eq (m : Magnitude) : m.units = m.significand * 2 ^ m.shift := Nat.shiftLeft_eq _ _

/-- The shift is read off the value: the leading bit of the significand is the bit 52 unless the shift is zero. -/
theorem log2_units (m : Magnitude) : m.units.log2 - 52 = m.shift := by
  have hlt : m.significand < 2 ^ 53 := m.significand_lt
  by_cases h0 : m.units = 0
  · have hs : m.shift = 0 := by
      by_contra hne
      have hle := m.le_significand (Nat.pos_of_ne_zero hne)
      rw [units_eq] at h0
      rcases Nat.mul_eq_zero.1 h0 with h | h
      · omega
      · exact absurd h (Nat.ne_of_gt (Nat.two_pow_pos _))
    rw [h0, hs]; rfl
  · by_cases hs : m.shift = 0
    · have hu : m.units = m.significand := by rw [units_eq, hs, Nat.pow_zero, Nat.mul_one]
      have := (Nat.log2_lt h0).2 (hu ▸ hlt)
      omega
    · have hle : 2 ^ 52 ≤ m.significand := m.le_significand (Nat.pos_of_ne_zero hs)
      have hlog : m.units.log2 = 52 + m.shift := by
        rw [Nat.log2_eq_iff h0, units_eq]
        constructor
        · rw [Nat.pow_add]; exact Nat.mul_le_mul_right _ hle
        · rw [show 52 + m.shift + 1 = 53 + m.shift by omega, Nat.pow_add]
          exact Nat.mul_lt_mul_of_pos_right hlt (Nat.two_pow_pos _)
      omega

/-- **A magnitude is the nearest one to its own value.** -/
theorem nearest?_units (m : Magnitude) (k : Nat) (hk : 0 < k) : Magnitude.nearest? (m.units * k) k = some m := by
  have hround : roundHalfEven (m.units * k) (k <<< m.shift) = m.significand := by
    have hpos : 0 < k <<< m.shift := Nat.shiftLeft_pos_iff.2 hk
    rw [← roundHalfEven_mul m.significand _ hpos, units_eq, Nat.shiftLeft_eq]
    congr 1; ring
  have hindex : m.shift * 0x10000000000000 + m.significand = m.index := m.index_eq.symm
  simp only [Magnitude.nearest?, Nat.mul_div_cancel _ hk, log2_units, hround, hindex, dif_pos m.index_lt]

/-! ## Decimals -/

/-- A value of `u` units is `u * 5 ^ n` times `10 ^ -n` when the unit is `2 ^ -n`; `n` is kept a variable so that no power
of ten is computed. -/
theorem nearest?_five_pow (m : Magnitude) (n : Nat) (hn : n = 1074) :
    (⟨m.units * Nat.pow 5 n, -(n : Int)⟩ : Decimal).nearest? = some m := by
  have hnum : Decimal.tenNum (-(n : Int)) = 1 := by simp [Decimal.tenNum]
  have hden : Decimal.tenDen (-(n : Int)) = 10 ^ n := by simp [Decimal.tenDen]
  have hten : (m.units * Nat.pow 5 n) <<< n = m.units * 10 ^ n := by
    rw [Nat.shiftLeft_eq, Nat.mul_assoc]
    congr 1
    exact (Nat.mul_pow 5 2 n).symm
  simp only [Decimal.nearest?, ← hn, hnum, hden, Nat.mul_one, hten]
  exact nearest?_units m (10 ^ n) (Nat.pow_pos (by decide))

theorem nearest?_exactDecimal (m : Magnitude) : m.exactDecimal.nearest? = some m := nearest?_five_pow m 1074 rfl

theorem isNearestTo_iff {m : Magnitude} {d : Decimal} : m.isNearestTo d = true ↔ d.nearest? = some m := by
  unfold isNearestTo
  exact beq_iff_eq

theorem nearest?_of_onGrid? {m : Magnitude} {p : Int} {d : Decimal} (h : m.onGrid? p = some d) : d.nearest? = some m := by
  unfold onGrid? at h
  exact isNearestTo_iff.1 (List.find?_some h)

theorem nearest?_search (m : Magnitude) : ∀ (n : Nat) (p : Int), (m.search p n).nearest? = some m
  | 0, p => by
    rw [search]
    exact nearest?_exactDecimal m
  | n + 1, p => by
    rw [search]
    cases h : m.onGrid? p with
    | none =>
      rw [Option.getD_none]
      exact nearest?_search m n (p - 1)
    | some d =>
      rw [Option.getD_some]
      exact nearest?_of_onGrid? h

/-- **The shortest decimal of a magnitude stands for it.** -/
theorem nearest?_shortest (m : Magnitude) : m.shortest.nearest? = some m := by
  unfold shortest
  split
  · next h =>
    have hm : m = zero := ext_index h
    have hnum : (0 * Decimal.tenNum 0) <<< 1074 = zero.units * 1 := by rw [Nat.zero_mul, Nat.zero_shiftLeft]; rfl
    have hden : Decimal.tenDen 0 = 1 := rfl
    rw [Decimal.nearest?, hnum, hden, nearest?_units zero 1 Nat.one_pos, hm]
  · exact nearest?_search m _ _

end Magnitude

/-! ## Numerals -/

/-- **A numeral**: digits and, if there are places, a point with their digits behind it. -/
structure Numeral where
  whole : List Char
  places : List Char
  whole_ne_nil : whole ≠ []
  isDigit_whole : ∀ c ∈ whole, c.isDigit = true
  isDigit_places : ∀ c ∈ places, c.isDigit = true

namespace Numeral

/-- What stands behind the whole digits. -/
def fraction (n : Numeral) : List Char := if n.places = [] then [] else '.' :: n.places

def text (n : Numeral) : List Char := n.whole ++ n.fraction

def decimal (n : Numeral) : Decimal := ⟨Nat.ofDigitChars 10 (n.whole ++ n.places) 0, -n.places.length⟩

theorem whole_eq (n : Numeral) : ∃ c cs, n.whole = c :: cs ∧ c.isDigit = true ∧ ∀ d ∈ cs, d.isDigit = true := by
  cases h : n.whole with
  | nil => exact absurd h n.whole_ne_nil
  | cons c cs =>
    have hall := n.isDigit_whole
    rw [h, List.forall_mem_cons] at hall
    exact ⟨c, cs, rfl, hall⟩

/-- A numeral has no sign, no exponent and no blank. -/
theorem isDigit_of_mem_text (n : Numeral) {c : Char} (hc : c ∈ n.text) : c.isDigit = true ∨ c = '.' := by
  rcases List.mem_append.1 hc with hw | hf
  · exact .inl (n.isDigit_whole c hw)
  · unfold fraction at hf
    split at hf
    · cases hf
    · rcases List.mem_cons.1 hf with hpoint | hp
      · exact .inr hpoint
      · exact .inl (n.isDigit_places c hp)

theorem takeWhile_fraction (n : Numeral) : n.fraction.takeWhile Char.isDigit = [] := by
  unfold fraction
  split <;> rfl

theorem dropWhile_fraction (n : Numeral) : n.fraction.dropWhile Char.isDigit = n.fraction := by
  unfold fraction
  split <;> rfl

theorem splitFraction_fraction (n : Numeral) : Decimal.splitFraction n.fraction = (n.places, []) := by
  unfold fraction
  split
  · next h => rw [h]; rfl
  · have htake : n.places.takeWhile Char.isDigit = n.places := List.takeWhile_eq_self_iff.2 n.isDigit_places
    have hdrop : n.places.dropWhile Char.isDigit = [] := List.dropWhile_eq_nil_iff.2 n.isDigit_places
    simp only [Decimal.splitFraction, htake, hdrop]

/-- **A numeral is read as the decimal of its digits.** -/
theorem ofText?_text (n : Numeral) : Decimal.ofText? n.text = some n.decimal := by
  have hwhole : n.text.takeWhile Char.isDigit = n.whole := by
    rw [text, List.takeWhile_append_of_pos n.isDigit_whole, takeWhile_fraction, List.append_nil]
  have hrest : n.text.dropWhile Char.isDigit = n.fraction := by
    rw [text, List.dropWhile_append_of_pos n.isDigit_whole, dropWhile_fraction]
  have hne : n.whole ++ n.places ≠ [] := fun h => n.whole_ne_nil (List.append_eq_nil_iff.1 h).1
  unfold Decimal.ofText?
  simp only [hwhole, hrest, splitFraction_fraction, if_neg hne, Decimal.exponentOf?, Option.map_some, Int.zero_sub]
  rfl

theorem splitSign_text (n : Numeral) : splitSign n.text = (false, n.text) := by
  obtain ⟨c, cs, hw, hc, -⟩ := n.whole_eq
  rw [text, hw, List.cons_append]
  unfold splitSign
  split
  · next h =>
    cases h
    exact absurd hc (by decide)
  · next h =>
    cases h
    exact absurd hc (by decide)
  · rfl

end Numeral

namespace Decimal

theorem isDigit_of_mem_zeros {k : Nat} : ∀ c ∈ List.replicate k '0', c.isDigit = true := by
  intro c hc
  rw [List.eq_of_mem_replicate hc]
  decide

theorem isDigit_of_mem_coefficient {d : Decimal} : ∀ c ∈ Nat.toDigits 10 d.coefficient, c.isDigit = true :=
  fun _ hc => Nat.isDigit_of_mem_toDigits (by decide) (by decide) hc

/-- Without places below the units the digits are followed by zeros, which the numeral counts as digits of its own. -/
theorem exists_numeral_of_nonneg {d : Decimal} (he : 0 ≤ d.exponent) :
    ∃ n : Numeral, n.text = d.positional ∧ n.decimal.nearest? = d.nearest? := by
  let n : Numeral := {
    whole := Nat.toDigits 10 d.coefficient ++ List.replicate d.exponent.toNat '0'
    places := []
    whole_ne_nil := fun h => Nat.toDigits_ne_nil (List.append_eq_nil_iff.1 h).1
    isDigit_whole := fun c hc => (List.mem_append.1 hc).elim (isDigit_of_mem_coefficient c) (isDigit_of_mem_zeros c)
    isDigit_places := fun c hc => absurd hc List.not_mem_nil }
  have hdecimal : n.decimal = ⟨d.coefficient * 10 ^ d.exponent.toNat, 0⟩ := by
    simp [n, Numeral.decimal, Nat.ofDigitChars_append, Nat.ofDigitChars_ten_toDigits, Nat.ofDigitChars_replicate_zero,
      Nat.mul_comm]
  have hden : tenDen d.exponent = 1 := by
    have : (-d.exponent).toNat = 0 := by omega
    rw [tenDen, this]
  have hnum : tenNum d.exponent = 10 ^ d.exponent.toNat := rfl
  have hnum0 : tenNum 0 = 1 := rfl
  have hden0 : tenDen 0 = 1 := rfl
  refine ⟨n, ?_, ?_⟩
  · simp [n, Numeral.text, Numeral.fraction, positional, he]
  · rw [hdecimal, nearest?, nearest?, hden, hnum, hnum0, hden0, Nat.mul_one]

/-- With places below the units the numeral has just those places, and is the decimal digit for digit. -/
theorem exists_numeral_of_neg {d : Decimal} (he : ¬ 0 ≤ d.exponent) :
    ∃ n : Numeral, n.text = d.positional ∧ n.decimal = d := by
  let places := (-d.exponent).toNat
  let padded := List.replicate (places + 1 - (Nat.toDigits 10 d.coefficient).length) '0' ++ Nat.toDigits 10 d.coefficient
  have hpadded : ∀ c ∈ padded, c.isDigit = true :=
    fun c hc => (List.mem_append.1 hc).elim (isDigit_of_mem_zeros c) (isDigit_of_mem_coefficient c)
  have hlen : places + 1 ≤ padded.length := by
    simp only [padded, List.length_append, List.length_replicate]
    omega
  let n : Numeral := {
    whole := padded.take (padded.length - places)
    places := padded.drop (padded.length - places)
    whole_ne_nil := fun h => by
      have := congrArg List.length h
      rw [List.length_take, List.length_nil] at this
      omega
    isDigit_whole := fun c hc => hpadded c (List.mem_of_mem_take hc)
    isDigit_places := fun c hc => hpadded c (List.mem_of_mem_drop hc) }
  have hplaces : n.places.length = places := by
    simp only [n, List.length_drop]
    omega
  have hne : n.places ≠ [] := fun h => by
    rw [h, List.length_nil] at hplaces
    omega
  have hcoefficient : Nat.ofDigitChars 10 (n.whole ++ n.places) 0 = d.coefficient := by
    simp [n, padded, Nat.ofDigitChars_append, Nat.ofDigitChars_ten_toDigits, Nat.ofDigitChars_replicate_zero]
  have hexponent : -(n.places.length : Int) = d.exponent := by
    rw [hplaces]
    omega
  refine ⟨n, ?_, ?_⟩
  · rw [Numeral.text, Numeral.fraction, if_neg hne, positional, if_neg he]
  · rw [Numeral.decimal, hcoefficient, hexponent]

/-- **In positional notation a decimal is a numeral**, one that stands for the same magnitude. -/
theorem exists_numeral (d : Decimal) : ∃ n : Numeral, n.text = d.positional ∧ n.decimal.nearest? = d.nearest? := by
  by_cases he : 0 ≤ d.exponent
  · exact exists_numeral_of_nonneg he
  · obtain ⟨n, htext, hdecimal⟩ := exists_numeral_of_neg he
    exact ⟨n, htext, by rw [hdecimal]⟩

end Decimal

namespace Number

theorem ofDecimal_of_nearest? {d : Decimal} {m : Magnitude} (h : d.nearest? = some m) (negative : Bool) :
    ofDecimal negative d = finite negative m := by
  rw [ofDecimal, h]
  rfl

theorem ofText?_of_decimal {cs body : List Char} {negative : Bool} {d : Decimal} (hs : splitSign cs = (negative, body))
    (hd : Decimal.ofText? body = some d) : ofText? cs = some (ofDecimal negative d) := by
  unfold ofText?
  rw [hs]
  simp only [hd]

/-- **A finite number without a minus sign is written as a numeral, and read back from it.** -/
theorem exists_numeral (m : Magnitude) :
    ∃ n : Numeral, (finite false m).text = String.ofList n.text ∧ ofText? n.text = some (finite false m) := by
  obtain ⟨n, htext, hnearest⟩ := m.shortest.exists_numeral
  rw [m.nearest?_shortest] at hnearest
  refine ⟨n, ?_, ?_⟩
  · rw [htext, text, signText]
    exact String.empty_append
  · rw [ofText?_of_decimal n.splitSign_text n.ofText?_text, ofDecimal_of_nearest? hnearest]

/-- **A finite number is read back from its text**, whatever its sign. -/
theorem ofText?_text {x : Number} (hx : x.isFinite = true) : ofText? x.text.toList = some x := by
  cases x with
  | nan s => cases hx
  | infinity s => cases hx
  | finite s m =>
    obtain ⟨n, htext, hnearest⟩ := m.shortest.exists_numeral
    rw [m.nearest?_shortest] at hnearest
    have hlist : (finite s m).text.toList = (signText s).toList ++ n.text := by
      rw [text, String.toList_append, String.toList_ofList, htext]
    have hsign : splitSign ((signText s).toList ++ n.text) = (s, n.text) := by
      cases s with
      | true => rfl
      | false => exact n.splitSign_text
    rw [hlist, ofText?_of_decimal hsign n.ofText?_text, ofDecimal_of_nearest? hnearest]

end Number
end LoxExpr
