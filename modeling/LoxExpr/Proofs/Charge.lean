import LoxExpr.Proofs.Grammar
import LoxExpr.Proofs.Moves
/-!
# Charges: what a tree costs, and what a reading was charged

The cost of a tree (`Expr.need`) is the greatest depth that reading it charges at any one moment.  A group and a prefix
operator add their charge to what is inside.  The links of one chain add up, so an operand is read under the links before it,
but each operand gives back its own charge: `Reads.charged` is this invariant of a reading, a chain going on from the
links that its left operand already has.

Whatever the outcome, a charge is paid for by a token (`State.Pays`), so no sum of a parse goes beyond four units for every
token, the closing token set aside (`asked_le_chargeable`).
-/
namespace LoxExpr

/-! ## The cost of a tree -/

/-- The binary nodes of the layer `l` that stand above one another from the root down the left operands. -/
def Expr.chainLength (l : Layer) : Expr → Nat
  | binary left op _ _ => if op.layer = l then left.chainLength l + 1 else 0
  | _ => 0

/-- **The budget a tree needs.** -/
def Expr.need : Expr → Nat
  | literal _ => 0
  | group e => 4 + e.need
  | unary _ _ e => 1 + e.need
  | binary left op _ right => max left.need (left.chainLength op.layer + 1 + right.need)

namespace Grammar

open Parsing (Rule)

/-- A tree read by a rule has no chain of a looser layer. -/
theorem Derives.chainLength_eq_zero {r : Rule} {u : List Token} {e : Expr} (h : Derives r u e) :
    ∀ l : Layer, r.rank < (Rule.layer l).rank → e.chainLength l = 0 := by
  induction h with
  | operand _ ih => exact fun l hl => ih l (Nat.lt_trans (rank_operandRule_lt _) hl)
  | link _ hop _ _ _ _ =>
    intro l hl
    obtain ⟨-, rfl⟩ := mem_operators_iff.1 hop
    have hne : ¬ BinaryOp.layer _ = l := fun h => by rw [h] at hl; exact Nat.lt_irrefl _ hl
    simp only [Expr.chainLength, if_neg hne]
  | primary _ ih => exact fun l _ => ih l (by simp only [Rule.rank]; omega)
  | withPrefix => exact fun _ _ => rfl
  | literal => exact fun _ _ => rfl
  | group => exact fun _ _ => rfl

theorem Derives.chainLength_operand {l : Layer} {u : List Token} {e : Expr} (h : Derives (operandRule l) u e) :
    e.chainLength l = 0 := h.chainLength_eq_zero l (rank_operandRule_lt l)

theorem Derives.chainLength_le {r : Rule} {u : List Token} {e : Expr} (h : Derives r u e) (l : Layer) :
    e.chainLength l ≤ u.length := by
  induction h with
  | link _ _ _ _ ih _ =>
    simp only [Expr.chainLength, List.length_append, List.length_cons]
    split <;> omega
  | operand _ ih => exact ih
  | primary _ ih => exact ih
  | withPrefix => exact Nat.zero_le _
  | literal => exact Nat.zero_le _
  | group => exact Nat.zero_le _

/-- **A budget of four units for every token is enough.** -/
theorem Derives.need_le {r : Rule} {u : List Token} {e : Expr} (h : Derives r u e) : e.need ≤ 4 * u.length := by
  induction h with
  | operand _ ih => exact ih
  | @link _ _ _ _ op _ _ _ hl _ _ _ ihl ihr =>
    have := hl.chainLength_le op.layer
    simp only [Expr.need, List.length_append, List.length_cons]
    omega
  | primary _ ih => exact ih
  | withPrefix _ _ _ ih => simp only [Expr.need, List.length_cons]; omega
  | literal => exact Nat.zero_le _
  | group _ _ _ ih =>
    simp only [Expr.need, List.length_cons, List.length_append, List.length_nil]
    omega

end Grammar

namespace Parsing

open Grammar

/-! ## What is read was charged -/

/-- How a task leaves the depth, and what its tree may need: a rule gives everything back, and a chain that began at the
depth `d` keeps one unit for each link. -/
def Accounts (budget : Nat) : Task → State → Expr → State → Prop
  | .rule _, s, e, s' => s.depth ≤ budget → s'.depth = s.depth ∧ s.depth + e.need ≤ budget
  | .links l left, s, e, s' => ∀ d, s.depth = d + left.chainLength l → d + left.need ≤ budget →
      s'.depth = d + e.chainLength l ∧ d + e.need ≤ budget

theorem Reads.accounts {budget : Nat} {task : Task} {s s' : State} {e : Expr} (h : Reads budget task s e s') :
    Accounts budget task s e s' := by
  induction h with
  | @layer l s left s₁ e s₂ hr _ ih₁ ih₂ =>
    intro hb
    obtain ⟨u, -, hd⟩ := hr.derives
    have h0 : left.chainLength l = 0 := Derives.chainLength_operand (by rw [operandRule_eq]; exact hd)
    obtain ⟨h₁, hneed⟩ := ih₁ hb
    exact ⟨rfl, (ih₂ s.depth (by rw [h₁, h0]; rfl) hneed).2⟩
  | noPrefix _ _ ih => exact ih
  | @withPrefix s _ _ s₁ e _ hp hb _ ih =>
    intro _
    have hdepth : s₁.depth = s.depth := State.depth_of_next? (State.prefixOp?_eq_some_iff.1 hp).1
    have hneed : s₁.depth + 1 + e.need ≤ budget := (ih hb).2
    exact ⟨rfl, by simp only [Expr.need]; omega⟩
  | literal hn _ => exact fun hb => ⟨State.depth_of_next? hn, hb⟩
  | @group s _ s₁ e s₂ s₃ hn _ _ hb _ hc ih =>
    intro _
    have hdepth : s₁.depth = s.depth := State.depth_of_next? hn
    obtain ⟨t', hn', -⟩ := State.closingParen?_eq_some_iff.1 hc
    have hclosed : s₃.depth = (s₂.restore s.depth).depth := State.depth_of_next? hn'
    have hneed : s₁.depth + 4 + e.need ≤ budget := (ih hb).2
    exact ⟨hclosed, by simp only [Expr.need]; omega⟩
  | noLink _ => exact fun d hd hneed => ⟨hd, hneed⟩
  | @link l left s op t s₁ right s₂ e s₃ hl hb _ _ ih₁ ih₂ =>
    intro d hd hneed
    obtain ⟨hn, -, ho⟩ := State.linkOp?_eq_some_iff.1 hl
    have hdepth : s₁.depth = s.depth := State.depth_of_next? hn
    obtain ⟨h₁, hright⟩ := ih₁ hb
    have h₁ : s₂.depth = s₁.depth + 1 := h₁
    have hright : s₁.depth + 1 + right.need ≤ budget := hright
    have hlen : (Expr.binary left op t right).chainLength l = left.chainLength l + 1 := by
      simp only [Expr.chainLength, if_pos ho]
    -- the link keeps its unit, so the chain has grown by what the depth has
    refine ih₂ d (by rw [h₁, hlen]; omega) ?_
    simp only [Expr.need, ho]
    omega

/-! ## Every charge is paid for by a token -/

/-- The greatest sum of a depth and a charge in the parse of a list. -/
def asked (budget : Nat) (tokens : List Token) : Nat :=
  match whole budget tokens with
  | .ok (_, s) => s.asked
  | .error f => f.state.asked

/-- What is looked at behind an expression is charged nothing. -/
theorem asked_eq (budget : Nat) (tokens : List Token) :
    asked budget tokens = (endState .stops budget (.rule .expression) (State.start tokens)).asked := by
  unfold asked endState
  rw [whole_eq]
  cases run .stops budget (.rule .expression) (State.start tokens) with
  | error f => rfl
  | ok r =>
    simp only [Except.bind]
    split
    · next h =>
      split at h
      · cases h; rfl
      · split at h <;> cases h; rfl
    · next h =>
      split at h
      · cases h
      · split at h <;> cases h; rw [State.state_failHere]

/-- **No sum of a parse is greater than four units for every token**, whatever the budget and the outcome. -/
theorem asked_le_chargeable (budget : Nat) (tokens : List Token) : asked budget tokens ≤ 4 * State.chargeable tokens := by
  rw [asked_eq]
  exact ((path_endState budget _ _).pays (State.pays_start tokens)).2

theorem asked_le (budget : Nat) (tokens : List Token) : asked budget tokens ≤ 4 * tokens.length :=
  Nat.le_trans (asked_le_chargeable budget tokens) (Nat.mul_le_mul_left 4 (State.chargeable_le_length tokens))

end Parsing
end LoxExpr
