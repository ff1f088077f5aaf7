import LoxExpr.Proofs.Lexemes
import LoxExpr.Proofs.Shortest
/-!
# Numerals: a finite number is scanned back from its text

A finite number is written as a numeral, behind a minus sign if it is negative, and the numerals are the lexemes of numbers
(`Segment.mem_number_iff`).  So its text is scanned whole, as one token that stands for the number itself
(`Scan.ofText_text`).  No place of it is there for nothing: the shortest decimal has no zero at its end
(`Magnitude.not_point_zero_suffix`).
-/
namespace LoxExpr

open Segment (lexemes)

/-! ## The last digit -/

namespace Decimal

theorem getLast?_toDigits (c : Nat) : (Nat.toDigits 10 c).getLast? = some (c % 10).digitChar := by
  rw [Nat.toDigits_eq_if (by decide)]
  split
  · next h => rw [Nat.mod_eq_of_lt h, List.getLast?_singleton]
  · exact List.getLast?_concat

/-- With places below the units the text ends with the last digit. -/
theorem getLast?_positional {d : Decimal} (he : ¬ 0 ≤ d.exponent) :
    d.positional.getLast? = some (d.coefficient % 10).digitChar := by
  have hpos : 0 < (Nat.toDigits 10 d.coefficient).length := Nat.length_toDigits_pos
  rw [positional, if_neg he, List.getLast?_append, List.getLast?_cons, List.getLast?_drop, if_neg, List.getLast?_append,
    getLast?_toDigits]
  · rfl
  · simp only [List.length_append, List.length_replicate]
    omega

theorem point_notMem_positional {d : Decimal} (he : 0 ≤ d.exponent) : '.' ∉ d.positional := by
  rw [positional, if_pos he, List.mem_append]
  rintro (h | h)
  · exact absurd (isDigit_of_mem_coefficient _ h) (by decide)
  · exact absurd (isDigit_of_mem_zeros _ h) (by decide)

end Decimal

/-- **A shortest decimal never ends with a point and a zero.** -/
theorem Magnitude.not_point_zero_suffix (m : Magnitude) : ¬ ['.', '0'] <:+ m.shortest.positional := by
  intro h
  by_cases he : 0 ≤ m.shortest.exponent
  · exact Decimal.point_notMem_positional he (h.subset (List.mem_cons_self ..))
  · have hm : m.index ≠ 0 := fun h0 => by
      have hshortest : m.shortest = ⟨0, 0⟩ := if_pos h0
      rw [hshortest] at he
      exact he (Int.le_refl 0)
    obtain ⟨front, hfront⟩ := h
    have hlast : some '0' = some (m.shortest.coefficient % 10).digitChar := by
      rw [← Decimal.getLast?_positional he, ← hfront, List.getLast?_append]
      rfl
    exact not_ten_dvd_shortest hm (Nat.dvd_of_mod_eq_zero (Nat.digitChar_eq_zero.1 (Option.some.inj hlast).symm))

/-! ## Back from the text -/

theorem Number.nearest?_of_ofDecimal {negative s : Bool} {d : Decimal} {m : Magnitude}
    (h : ofDecimal negative d = finite s m) : d.nearest? = some m := by
  unfold ofDecimal at h
  cases hd : d.nearest? with
  | none =>
    rw [hd] at h
    cases h
  | some m' =>
    rw [hd] at h
    cases h
    rfl

theorem Scan.ofText_numeral (n : Numeral) : ofText (String.ofList n.text) =
    ⟨[⟨.number, String.ofList n.text, (Number.ofText? n.text).map .number, 1⟩, Token.eof 1], []⟩ := by
  have hscan := ofChars_numeral n Segment.endsPiece_nil 1
  rw [List.append_nil, ofChars_nil] at hscan
  rw [ofText, String.toList_ofList]
  exact hscan

/-- **A finite number is scanned back from its text.**  Without a minus sign the text is digits, or digits and a point and
digits; there is no point and zero at its end to be left out.  It is the positional notation of a decimal that is read as the
number, and no decimal that is read as the number has fewer digits.  The scan of it has one token, a number that stands for
the very same number, and no error.  A negative number is written as a minus sign and the text of its opposite. -/
theorem Scan.ofText_text (x : Number) (hx : x.isFinite = true) :
    (x.isNegative = false →
      x.text.toList ∈ lexemes .number ∧
      ¬ ['.', '0'] <:+ x.text.toList ∧
      (∃ d : Decimal, x.text = String.ofList d.positional ∧ Number.ofDecimal false d = x ∧
        ∀ d' : Decimal, Number.ofDecimal false d' = x →
          (Nat.toDigits 10 d.coefficient).length ≤ (Nat.toDigits 10 d'.coefficient).length) ∧
      ofText x.text = ⟨[⟨.number, x.text, some (.number x), 1⟩, Token.eof 1], []⟩) ∧
    (x.isNegative = true → x.neg.isFinite = true ∧ x.neg.isNegative = false ∧ x.text = "-" ++ x.neg.text) := by
  cases x with
  | nan s => cases hx
  | infinity s => cases hx
  | finite s m =>
    constructor
    · intro hs
      obtain rfl : s = false := hs
      obtain ⟨n, htext, hread⟩ := Number.exists_numeral m
      have hpositional : (Number.finite false m).text = String.ofList m.shortest.positional := String.empty_append
      refine ⟨?_, ?_, ⟨m.shortest, hpositional, Number.ofDecimal_of_nearest? m.nearest?_shortest false, fun d' hd' => ?_⟩, ?_⟩
      · rw [htext, String.toList_ofList]
        exact Segment.mem_number_iff.2 ⟨n, rfl⟩
      · rw [hpositional, String.toList_ofList]
        exact m.not_point_zero_suffix
      · exact Magnitude.length_digits_shortest_le (Number.nearest?_of_ofDecimal hd')
      · rw [htext, ofText_numeral, hread]
        rfl
    · intro hs
      obtain rfl : s = true := hs
      refine ⟨rfl, rfl, ?_⟩
      rw [Number.text, Number.neg, Number.text, Bool.not_true, signText, signText]
      exact congrArg ("-" ++ ·) String.empty_append.symm

/-- The sum of a tenth and two tenths, as doubles. -/
def threeTenths : Number := (Number.ofDecimal false ⟨1, -1⟩).add (Number.ofDecimal false ⟨2, -1⟩)

/-- It takes seventeen places, and none can be left out. -/
theorem Scan.ofText_threeTenths : threeTenths.isFinite = true ∧ threeTenths.text = "0.30000000000000004" ∧
    ofText "0.30000000000000004" = ⟨[⟨.number, "0.30000000000000004", some (.number threeTenths), 1⟩, Token.eof 1], []⟩ ∧
    threeTenths.neg.text = "-0.30000000000000004" := by
  have htext : threeTenths.text = "0.30000000000000004" := by decide +kernel
  obtain ⟨-, -, -, hscan⟩ := (ofText_text threeTenths (by decide +kernel)).1 (by decide +kernel)
  obtain ⟨-, -, hneg⟩ := (ofText_text threeTenths.neg (by decide +kernel)).2 (by decide +kernel)
  refine ⟨by decide +kernel, htext, ?_, ?_⟩
  · rw [← htext]
    exact hscan
  · rw [hneg, Number.neg_neg, htext]
    rfl

end LoxExpr
