import LoxExpr.Proofs.Budgets
import LoxExpr.Proofs.Composition
import LoxExpr.Proofs.Height
import LoxExpr.Proofs.Literals
/-!
# Reprints: the budget of a tree that is written again

A tree is written with a group around each of its operators, so the budget that its text needs (`Expr.reprintNeed`) is not the
one that the tree was read within.  An operator costs five units there where it may have cost one, and the links of a chain
stand inside one another, four units deeper each; on the other hand an operand is not read under the links before it.

The reprint of a tree is read within just that budget (`reprintNeed_le_iff`), and otherwise a charge is refused.  For the
trees that a budget lets through it is at most five times the greatest height of them; but only the budget zero lets all of
their reprints through.
-/
namespace LoxExpr

open Grammar (Derives Denotes greatestHeight)
open Parsing (defaultBudget)

/-! ## What a reprint needs -/

/-- A negative number is written as a negation in a group. -/
def Value.reprintNeed : Value → Nat
  | number n => if n.isNegative then 5 else 0
  | _ => 0

/-- **The budget that the source text of a tree needs.** -/
def Expr.reprintNeed : Expr → Nat
  | literal v => v.reprintNeed
  | group e => 4 + e.reprintNeed
  | unary _ _ e => 5 + e.reprintNeed
  | binary l _ _ r => 4 + max l.reprintNeed (1 + r.reprintNeed)

theorem Value.need_reparsed (v : Value) (line : Nat) : (v.reparsed line).need = v.reprintNeed := by
  cases v with
  | number n => by_cases hn : n.isNegative = true <;> simp [reparsed, reprintNeed, hn, Expr.need, Expr.unaryAt]
  | _ => rfl

theorem Expr.need_reparsed (e : Expr) (line : Nat) : (e.reparsed line).need = e.reprintNeed := by
  induction e generalizing line with
  | literal v => exact v.need_reparsed line
  | group e ih => rw [reparsed, need, ih, reprintNeed]
  | unary op t e ih =>
    rw [reparsed, need, unaryAt, need, ih, reprintNeed]
    omega
  | binary l op t r ihl ihr =>
    have hchain := l.chainLength_reparsed line op.layer
    rw [reparsed, need, binaryAt, need, hchain, ihl, ihr, reprintNeed, Nat.zero_add]

/-- What was read from a text has no negative numbers, so only its inner nodes are charged. -/
theorem Expr.reprintNeed_le_height {e : Expr} (h : ∀ v ∈ e.literals, v.FromText) : e.reprintNeed ≤ 5 * e.height := by
  induction e with
  | literal v =>
    have hv := h v (List.mem_singleton_self v)
    cases v with
    | number n =>
      have hn : n.isNegative = false := hv
      simp [reprintNeed, Value.reprintNeed, hn]
    | _ => exact Nat.zero_le _
  | group e ih =>
    have := ih h
    simp only [reprintNeed, height]
    omega
  | unary op t e ih =>
    have := ih h
    simp only [reprintNeed, height]
    omega
  | binary l op t r ihl ihr =>
    obtain ⟨hl, hr⟩ := List.forall_mem_append.1 h
    have := ihl hl
    have := ihr hr
    simp only [reprintNeed, height]
    omega

/-! ## Reading a reprint -/

section
variable {budget : Nat} {source : String} {e : Expr}

theorem Expr.exists_tokens_sourceText (h : e.HasSource) : ∃ us line, Scan.ofText e.sourceText = ⟨us ++ [Token.eof line], []⟩ ∧
    Derives (.layer .equality) us (e.reparsed 1) ∧ ∀ u ∈ us, u.kind ≠ .eof := by
  obtain ⟨us, hus, hd⟩ := (e.isExpression_sourceText h (Nat.le_refl _)).tokens
  exact ⟨us, _, hus, hd, hd.kind_ne_eof⟩

theorem Expr.errors_sourceText (h : e.HasSource) : (Scan.ofText e.sourceText).errors = [] := by
  obtain ⟨us, line, hscan, -⟩ := e.exists_tokens_sourceText h
  rw [hscan]

/-- **A reprint is read within a budget exactly if that covers what it needs.** -/
theorem Expr.reprintNeed_le_iff (h : e.HasSource) :
    Expr.ofTokens budget (Scan.ofText e.sourceText).tokens = .ok (e.reparsed 1) ↔ e.reprintNeed ≤ budget := by
  obtain ⟨us, line, hscan, hd, hne⟩ := e.exists_tokens_sourceText h
  rw [hscan, Parsing.ofTokens_closed_iff hne, e.need_reparsed]
  exact and_iff_right hd

theorem Expr.refused_sourceText (h : e.HasSource) (hb : budget < e.reprintNeed) :
    ∃ err, Expr.ofTokens budget (Scan.ofText e.sourceText).tokens = .error err ∧ err.cause = .nestingTooDeep := by
  have henough := (e.reprintNeed_le_iff h).2 (Nat.le_refl _)
  refine (Parsing.ofTokens_eq_or_refused (Nat.le_of_lt hb) _).resolve_left fun heq => ?_
  exact Nat.not_le_of_lt hb ((e.reprintNeed_le_iff h).1 (heq.trans henough))

theorem Expr.reprintNeed_le_greatestHeight (h : Expr.ofTokens budget (Scan.ofText source).tokens = .ok e) :
    e.reprintNeed ≤ 5 * greatestHeight budget :=
  Nat.le_trans (reprintNeed_le_height (literals_of_scan h)) (Nat.mul_le_mul_left 5 (Parsing.height_le_greatestHeight h))

/-- What a budget lets through, it lets through again as a reprint, which comes to the same. -/
def Parsing.KeepsReprints (budget : Nat) : Prop := ∀ source e, (Scan.ofText source).errors = [] →
  Expr.ofTokens budget (Scan.ofText source).tokens = .ok e → e.IsFinite →
    (Scan.ofText e.sourceText).errors = [] ∧ ∃ e', Expr.ofTokens budget (Scan.ofText e.sourceText).tokens = .ok e' ∧
      outcome e'.evaluate = outcome e.evaluate

/-! ## Prefix operators one behind the other -/

/-- `true` behind `n` negations. -/
def nots : Nat → Expr
  | 0 => .literal (.bool true)
  | n + 1 => .unaryAt .not (nots n) 1

def notsText (n : Nat) : String := String.ofList (List.replicate n '!' ++ Keyword.trueWord.spelling.toList)

theorem hasSource_nots (n : Nat) : (nots n).HasSource := by
  induction n with
  | zero => trivial
  | succ n ih => exact ih

theorem isFinite_nots (n : Nat) : (nots n).IsFinite := by
  induction n with
  | zero => exact fun m hm => absurd (List.mem_singleton.1 hm) (by simp)
  | succ n ih => exact ih

theorem need_nots (n : Nat) : (nots n).need = n := by
  induction n with
  | zero => rfl
  | succ n ih => rw [nots, Expr.unaryAt, Expr.need, ih, Nat.add_comm]

theorem reprintNeed_nots (n : Nat) : (nots n).reprintNeed = 5 * n := by
  induction n with
  | zero => rfl
  | succ n ih => rw [nots, Expr.unaryAt, Expr.reprintNeed, ih, Nat.mul_succ, Nat.add_comm]

theorem exists_scansAs_nots (n : Nat) : Opens (List.replicate n '!' ++ Keyword.trueWord.spelling.toList) ∧
    ∃ u, Derives .unary u (nots n) ∧ ScansAs 1 1 (List.replicate n '!' ++ Keyword.trueWord.spelling.toList) u := by
  induction n with
  | zero =>
    have htrue := writtenFor_keyword (v := .bool true) (fun _ h => Denotes.trueWord h) 1
    obtain ⟨u, hd, hs⟩ := htrue.tokens
    exact ⟨htrue.opens, u, .primary hd, hs⟩
  | succ n ih =>
    obtain ⟨hopens, u, hd, hs⟩ := ih
    refine ⟨⟨_, _, rfl, by decide, by decide⟩, _, .withPrefix (Grammar.mem_prefixes_iff.2 rfl) rfl hd, ?_⟩
    exact hs.withSymbol Symbol.bang hopens

/-- A unit for each negation is enough for them. -/
theorem ofTokens_notsText (n : Nat) : (Scan.ofText (notsText n)).errors = [] ∧
    Expr.ofTokens n (Scan.ofText (notsText n)).tokens = .ok (nots n) := by
  obtain ⟨-, u, hd, hs⟩ := exists_scansAs_nots n
  have htext : Scan.ofText (notsText n) = ⟨u ++ [Token.eof 1], []⟩ := by
    rw [Scan.ofText, notsText, String.toList_ofList]
    exact hs.ofChars_eq
  have hd : Derives (.layer .equality) u (nots n) := hd.layer_of_unary _
  rw [htext]
  exact ⟨rfl, (Parsing.ofTokens_closed_iff hd.kind_ne_eof).2 ⟨hd, Nat.le_of_eq (need_nots n)⟩⟩

theorem not_keepsReprints (hb : budget ≠ 0) : ¬ Parsing.KeepsReprints budget := by
  intro hkeeps
  obtain ⟨herrors, hread⟩ := ofTokens_notsText budget
  obtain ⟨-, e', hread', -⟩ := hkeeps _ _ herrors hread (isFinite_nots budget)
  -- each of the negations costs five units there instead of one
  have hneed := reprintNeed_nots budget
  obtain ⟨err, herr, -⟩ := (nots budget).refused_sourceText (hasSource_nots budget) (by omega : budget < _)
  cases hread'.symm.trans herr

theorem keepsReprints_zero : Parsing.KeepsReprints 0 := by
  intro source e _ hread hfinite
  have hsource := hasSource_of_scan hread hfinite
  exact ⟨e.errors_sourceText hsource, e.reparsed 1, (e.reprintNeed_le_iff hsource).2 (e.reprintNeed_le_greatestHeight hread),
    e.outcome_reparsed 1⟩

/-! ## All texts -/

/-- **Written again, a tree needs another budget than before.**  What is read from a text, with finite numbers, is written as a
text without lexical errors; a budget lets that through, as the tree that `reparsed` describes and that comes to the same,
exactly if it covers `reprintNeed`, and refuses a charge otherwise.  Five times the greatest height of the trees that a budget
lets through is enough for their reprints; that budget itself is enough for all of them only if it is zero. -/
theorem Parsing.reprints_spec (budget : Nat) :
    (∀ source e, (Scan.ofText source).errors = [] → Expr.ofTokens budget (Scan.ofText source).tokens = .ok e → e.IsFinite →
      (Scan.ofText e.sourceText).errors = [] ∧
      (∀ b, Expr.ofTokens b (Scan.ofText e.sourceText).tokens = .ok (e.reparsed 1) ↔ e.reprintNeed ≤ b) ∧
      (∀ b, b < e.reprintNeed →
        ∃ err, Expr.ofTokens b (Scan.ofText e.sourceText).tokens = .error err ∧ err.cause = .nestingTooDeep) ∧
      outcome (e.reparsed 1).evaluate = outcome e.evaluate ∧
      e.reprintNeed ≤ 5 * greatestHeight budget) ∧
    (KeepsReprints budget ↔ budget = 0) := by
  refine ⟨fun source e _ hread hfinite => ?_, fun h => ?_, ?_⟩
  · have hsource := hasSource_of_scan hread hfinite
    exact ⟨e.errors_sourceText hsource, fun b => e.reprintNeed_le_iff hsource, fun b => e.refused_sourceText hsource,
      e.outcome_reparsed 1, e.reprintNeed_le_greatestHeight hread⟩
  · exact by_contra fun hb => not_keepsReprints hb h
  · rintro rfl
    exact keepsReprints_zero

/-- Fifty-two negations need fifty-two units, and their reprint two hundred and sixty. -/
theorem Parsing.refused_reprint_nots : (Scan.ofText (notsText 52)).errors = [] ∧
    Expr.ofTokens defaultBudget (Scan.ofText (notsText 52)).tokens = .ok (nots 52) ∧ (nots 52).IsFinite ∧
    (∃ err, Expr.ofTokens defaultBudget (Scan.ofText (nots 52).sourceText).tokens = .error err ∧
      err.cause = .nestingTooDeep) ∧ ¬ KeepsReprints defaultBudget := by
  obtain ⟨herrors, hread⟩ := ofTokens_notsText 52
  exact ⟨herrors, ofTokens_mono hread (by decide), isFinite_nots 52,
    (nots 52).refused_sourceText (hasSource_nots 52) (by decide), not_keepsReprints (by decide)⟩

end
end LoxExpr
