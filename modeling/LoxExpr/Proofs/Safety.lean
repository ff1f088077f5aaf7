import LoxExpr.Proofs.Budgets
import LoxExpr.Proofs.Seams
/-!
# Safety: no text makes a run fail in itself

A run could fail in itself in two ways.  A family that is handed the operator of another one has no answer, and
`Family.apply_eq_misused_iff` says exactly when that is; no tree comes to it, since an operator is applied by its own family.
And the depth could grow beyond the machine words; but a charge is paid for by a token (`State.Pays`), a text has no more
tokens than characters beside the closing one, and a quarter of all words is more characters than that.
-/
namespace LoxExpr

open Parsing (State ComesTo groupCost greatestWord asked)
open Parsing.State (chargeable)

/-! ## Misused families -/

namespace Family

theorem onNumbers_eq_misused_iff {t : Token} {v w : Value} {f : Number → Number → Except Stop Value} {m : Misuse} :
    onNumbers t v w f = .error (.misused m) ↔
      ∃ x y, v.asNumber? = some x ∧ w.asNumber? = some y ∧ f x y = .error (.misused m) := by
  unfold onNumbers
  cases v.asNumber? with
  | none => simp
  | some x => cases w.asNumber? <;> simp

/-- **A family is misused** exactly when it is not addition, is handed the operator of another family, and finds operands that
it would have taken: two numbers, or any two values where it compares for equality. -/
theorem apply_eq_misused_iff {family : Family} {op : BinaryOp} {t : Token} {v w : Value} {m : Misuse} :
    family.apply op t v w = .error (.misused m) ↔
      m = ⟨family, op⟩ ∧ op.family ≠ family ∧
        (family = .equality ∨ family ≠ .addition ∧ v.asNumber?.isSome = true ∧ w.asNumber?.isSome = true) := by
  cases family with
  | equality => cases op <;> simp [apply, applyEquality, BinaryOp.family, @eq_comm _ m]
  | addition => cases v <;> cases w <;> simp [apply, applyAddition]
  | comparison =>
    simp only [apply, applyComparison, onNumbers_eq_misused_iff, Option.isSome_iff_exists]
    cases op <;> simp [BinaryOp.family, @eq_comm _ m] <;> tauto
  | arithmetic =>
    simp only [apply, applyArithmetic, onNumbers_eq_misused_iff, Option.isSome_iff_exists]
    cases op <;> simp [BinaryOp.family, @eq_comm _ m] <;> tauto

end Family

/-! ## Sums of a depth and a charge -/

namespace Run

/-- Beside its closing token, a text has no more tokens than characters. -/
theorem chargeable_ofText_le (source : String) : chargeable (Scan.ofText source).tokens ≤ source.length := by
  obtain ⟨us, line, hus, -⟩ := Scan.ofSegments_tokens 1 (Segment.split source.toList)
  have htokens : (Scan.ofText source).tokens = us ++ [Token.eof line] := hus
  have hlen := Scan.length_tokens_ofText_le source
  rw [htokens, List.length_append, List.length_singleton] at hlen
  rw [htokens, chargeable, List.countP_append]
  exact Nat.le_trans List.countP_le_length (Nat.le_of_succ_le_succ hlen)

/-- With fewer characters than a quarter of all words, the sums of a depth and a charge are words. -/
theorem asked_ofText_le {source : String} (h : source.length < 0x4000000000000000) (budget : Nat) :
    asked budget (Scan.ofText source).tokens ≤ greatestWord := by
  have hasked := Parsing.asked_le_chargeable budget (Scan.ofText source).tokens
  have htokens := chargeable_ofText_le source
  unfold greatestWord
  omega

theorem depth_add_groupCost_le {budget : Nat} {source : String} {x s₁ : State} {t : Token} {y : Symbol}
    (h : source.length < 0x4000000000000000)
    (hx : ComesTo .stops budget (.rule .expression) (.start (Scan.ofText source).tokens) x) (hn : x.next? = some (t, s₁))
    (hk : t.kind = .symbol y) : s₁.depth + groupCost ≤ greatestWord := by
  have hpays := (hx.path.pays (State.pays_start _)).of_symbol hn hk
  have htokens := chargeable_ofText_le source
  unfold greatestWord
  omega

/-! ## Runs -/

/-- **No text makes a run fail in itself**, if it has fewer characters than a quarter of all words: under any budget and into
any diagnostics, the run is not aborted; wherever the parse comes to a symbol, which is where it may be charged, the depth
has room for the greatest charge within the words; and no sum of a depth and a charge that it makes leaves them, so the parse
does not overflow, and is the same whatever an overflow would do.  No tree at all misuses a family, whatever tokens stand
at its operators. -/
theorem ofText_safe (budget : Nat) (source : String) (sink : Diagnostics) (h : source.length < 0x4000000000000000) :
    (∀ m, (ofText budget source sink).outcome ≠ .aborted m) ∧
    (∀ x t s₁ y, ComesTo .stops budget (.rule .expression) (.start (Scan.ofText source).tokens) x → x.next? = some (t, s₁) →
      t.kind = .symbol y → s₁.depth + groupCost ≤ greatestWord) ∧
    asked budget (Scan.ofText source).tokens ≤ greatestWord ∧
    (∀ t x, Parsing.whole budget (Scan.ofText source).tokens ≠ .error (.overflowed t x)) ∧
    (∀ o, Parsing.run o budget (.rule .expression) (.start (Scan.ofText source).tokens) =
      Parsing.run .stops budget (.rule .expression) (.start (Scan.ofText source).tokens)) ∧
    ∀ (e : Expr) m, e.evaluate ≠ .error (.misused m) := by
  have htokens := Nat.lt_of_le_of_lt (chargeable_ofText_le source) h
  refine ⟨fun m hm => ?_, fun x t s₁ y => depth_add_groupCost_le h, asked_ofText_le h budget,
    Parsing.whole_ne_overflowed budget htokens, fun o => Parsing.run_start_eq o budget htokens, Expr.evaluate_ne_misused⟩
  obtain ⟨outcome, events, new, hgoes⟩ := exists_goes budget source sink
  rw [hgoes.ofText_eq] at hm
  cases hgoes <;> cases hm

/-- Under the greatest budget no sum that is a word is refused, so the check alone keeps none within the words.  The tree has
the token of another operator. -/
theorem ofText_opposite_safe : "-(1 - nil)".length < 0x4000000000000000 ∧
    (∀ m, (ofText greatestWord "-(1 - nil)" .empty).outcome ≠ .aborted m) ∧
    asked greatestWord (Scan.ofText "-(1 - nil)").tokens ≤ greatestWord ∧
    (∀ t x, Parsing.whole greatestWord (Scan.ofText "-(1 - nil)").tokens ≠ .error (.overflowed t x)) ∧
    ∀ m, (Expr.binary (.literal .nil) .equal (BinaryOp.token .less 1) (.literal .nil)).evaluate ≠ .error (.misused m) := by
  have hlen : "-(1 - nil)".length < 0x4000000000000000 := by decide
  obtain ⟨houtcome, -, hasked, hwhole, -, heval⟩ := ofText_safe greatestWord "-(1 - nil)" .empty hlen
  exact ⟨hlen, houtcome, hasked, hwhole, heval _⟩

end Run
end LoxExpr
