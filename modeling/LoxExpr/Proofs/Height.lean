import LoxExpr.Proofs.Acceptance
/-!
# Height: how deep a tree a budget lets through

A link is charged to the operands behind it, but it is the operands in front of it that it puts one level deeper; and the
first operand of a chain is read before any of its links is charged.  So every layer can add a whole budget of links on top
of what stands first in it, and a group on the far left starts all over with four units less.  `greatestHeight` is what that
comes to, about half the square of the budget: no accepted tree is higher, and one is as high (`greatestHeight_spec`).
-/
namespace LoxExpr
namespace Grammar

open Parsing (Rule)

/-! ## The bound -/

/-- The greatest height of what the tightest operators stand between: up to four units the budget goes into prefix
operators, and from there on a group with a chain of every layer in it is higher. -/
def unaryHeight : Nat → Nat
  | 0 => 0
  | 1 => 1
  | 2 => 2
  | 3 => 3
  | 4 => 4
  | n + 5 => 4 * (n + 1) + unaryHeight (n + 1) + 1

/-- The greatest height of the operands of a layer: each tighter layer adds a link for every unit. -/
def operandHeight (l : Layer) (budget : Nat) : Nat := l.rank * budget + unaryHeight budget

/-- **The greatest height of a tree within a budget.** -/
def greatestHeight (budget : Nat) : Nat := 4 * budget + unaryHeight budget

theorem unaryHeight_lt_succ (n : Nat) : unaryHeight n < unaryHeight (n + 1) := by
  fun_induction unaryHeight n with
  | case6 n ih => rw [unaryHeight]; omega
  | _ => decide

theorem unaryHeight_mono {m n : Nat} (h : m ≤ n) : unaryHeight m ≤ unaryHeight n := by
  induction h with
  | refl => exact Nat.le_refl _
  | step _ ih => exact Nat.le_trans ih (Nat.le_of_lt (unaryHeight_lt_succ _))

theorem group_le_unaryHeight (n : Nat) : 4 * n + unaryHeight n + 1 ≤ unaryHeight (n + 4) := by
  cases n with
  | zero => decide
  | succ n => exact Nat.le_of_eq (by rw [unaryHeight])

theorem operandHeight_mono (l : Layer) {m n : Nat} (h : m ≤ n) : operandHeight l m ≤ operandHeight l n :=
  Nat.add_le_add (Nat.mul_le_mul_left _ h) (unaryHeight_mono h)

theorem chainLength_le_need (e : Expr) (l : Layer) : e.chainLength l ≤ e.need := by
  cases e with
  | binary left op t right =>
    simp only [Expr.chainLength, Expr.need]
    split
    · next h => rw [h]; omega
    · exact Nat.zero_le _
  | _ => exact Nat.zero_le _

/-! ## No tree is higher -/

/-- The bound by rule; a layer adds its own links to the bound of its operands. -/
def HeightWithin (r : Rule) (e : Expr) (budget : Nat) : Prop :=
  match r with
  | .layer l => e.height ≤ e.chainLength l + operandHeight l budget
  | _ => e.height ≤ unaryHeight budget

theorem HeightWithin.operand {l : Layer} {e : Expr} {budget : Nat} (h : HeightWithin (operandRule l) e budget)
    (hb : e.need ≤ budget) : e.height ≤ operandHeight l budget := by
  have hc := fun l' => Nat.le_trans (chainLength_le_need e l') hb
  cases l with
  | factor => simp only [HeightWithin, operandRule, operandHeight, Layer.rank] at *; omega
  | term => have := hc .factor; simp only [HeightWithin, operandRule, operandHeight, Layer.rank] at *; omega
  | comparison => have := hc .term; simp only [HeightWithin, operandRule, operandHeight, Layer.rank] at *; omega
  | equality => have := hc .comparison; simp only [HeightWithin, operandRule, operandHeight, Layer.rank] at *; omega

theorem heightWithin_of_derives {r : Rule} {u : List Token} {e : Expr} (h : Derives r u e) :
    ∀ budget, e.need ≤ budget → HeightWithin r e budget := by
  induction h with
  | operand hd ih =>
    intro budget hb
    have := (ih budget hb).operand hb
    simp only [HeightWithin]; omega
  | @link l _ left _ op t _ right _ ho _ _ ihl ihr =>
    intro budget hb
    obtain ⟨-, rfl⟩ := mem_operators_iff.1 ho
    simp only [Expr.need] at hb
    have hl := ihl budget (by omega)
    have hr := (ihr (budget - (left.chainLength op.layer + 1)) (by omega)).operand (by omega)
    have hm := operandHeight_mono op.layer (Nat.sub_le budget (left.chainLength op.layer + 1))
    simp only [HeightWithin, Expr.height, Expr.chainLength, if_true] at hl ⊢
    omega
  | primary _ ih => exact ih
  | withPrefix _ _ _ ih =>
    intro budget hb
    simp only [Expr.need] at hb
    have := ih (budget - 1) (by omega)
    have := unaryHeight_lt_succ (budget - 1)
    rw [Nat.sub_add_cancel (by omega)] at this
    simp only [HeightWithin, Expr.height] at *
    omega
  | literal => exact fun budget _ => Nat.zero_le _
  | @group t u t' e _ hd _ ih =>
    intro budget hb
    simp only [Expr.need] at hb
    have hin : e.height ≤ e.chainLength .equality + operandHeight .equality (budget - 4) := ih (budget - 4) (by omega)
    have := chainLength_le_need e .equality
    have := group_le_unaryHeight (budget - 4)
    rw [Nat.sub_add_cancel (by omega)] at this
    simp only [HeightWithin, Expr.height, operandHeight, Layer.rank] at *
    omega

/-! ## One tree is as high -/

/-- The shortest expression. -/
def nilToken : Token := ⟨.keyword .nilWord, "nil", none, 1⟩

theorem derives_nil : Derives .unary [nilToken] (.literal .nil) := .primary (.literal (.nilWord rfl))

theorem exists_prefixes (n : Nat) : ∃ u e, Derives .unary u e ∧ e.need = n ∧ e.height = n := by
  induction n with
  | zero => exact ⟨[nilToken], .literal .nil, derives_nil, rfl, rfl⟩
  | succ n ih =>
    obtain ⟨u, e, hd, hn, hh⟩ := ih
    refine ⟨_, .unary .not (UnaryOp.token .not 1) e, .withPrefix (mem_prefixes_iff.2 rfl) rfl hd, ?_, ?_⟩
    · simp only [Expr.need]; omega
    · simp only [Expr.height]; omega

theorem exists_operator (l : Layer) : ∃ op : BinaryOp, op.layer = l := by
  cases l with
  | equality => exact ⟨.equal, rfl⟩
  | comparison => exact ⟨.less, rfl⟩
  | term => exact ⟨.add, rfl⟩
  | factor => exact ⟨.mul, rfl⟩

/-- **A chain on top of any operand**: it needs as many units as it has links, and all of them stand above the operand. -/
theorem exists_chain {l : Layer} {u : List Token} {e : Expr} (h : Derives (operandRule l) u e) (n : Nat) :
    ∃ u' e', Derives (.layer l) u' e' ∧ e'.chainLength l = n ∧ e'.need = max e.need n ∧ e'.height = e.height + n := by
  induction n with
  | zero => exact ⟨u, e, .operand h, h.chainLength_operand, by simp, rfl⟩
  | succ n ih =>
    obtain ⟨u', e', hd, hc, hn, hh⟩ := ih
    obtain ⟨op, rfl⟩ := exists_operator l
    refine ⟨_, .binary e' op (op.token 1) (.literal .nil),
      .link hd (mem_operators_iff.2 ⟨rfl, rfl⟩) rfl (derives_nil.operand_of_unary _), ?_, ?_, ?_⟩
    · simp only [Expr.chainLength, if_true, hc]
    · simp only [Expr.need, hc, hn]; omega
    · simp only [Expr.height, hh]; omega

/-- A whole budget of links in each of the four layers, on top of what stands first. -/
theorem exists_chains {u : List Token} {e : Expr} (h : Derives .unary u e) (n : Nat) :
    ∃ u' e', Derives (.layer .equality) u' e' ∧ e'.need = max e.need n ∧ e'.height = e.height + 4 * n := by
  obtain ⟨u₁, e₁, h₁, -, hn₁, hh₁⟩ := exists_chain (l := .factor) h n
  obtain ⟨u₂, e₂, h₂, -, hn₂, hh₂⟩ := exists_chain (l := .term) h₁ n
  obtain ⟨u₃, e₃, h₃, -, hn₃, hh₃⟩ := exists_chain (l := .comparison) h₂ n
  obtain ⟨u₄, e₄, h₄, -, hn₄, hh₄⟩ := exists_chain (l := .equality) h₃ n
  exact ⟨u₄, e₄, h₄, by omega, by omega⟩

theorem exists_unaryHeight (n : Nat) : ∃ u e, Derives .unary u e ∧ e.need ≤ n ∧ e.height = unaryHeight n := by
  fun_induction unaryHeight n with
  | case6 n ih =>
    obtain ⟨u, e, hd, hn, hh⟩ := ih
    obtain ⟨u', e', hd', hn', hh'⟩ := exists_chains hd (n + 1)
    have hg : Derives .primary (Symbol.token .leftParen 1 :: (u' ++ [Symbol.token .rightParen 1])) (.group e') :=
      .group rfl hd' rfl
    refine ⟨_, .group e', .primary hg, ?_, ?_⟩
    · simp only [Expr.need]; omega
    · simp only [Expr.height]; omega
  | _ =>
    obtain ⟨u, e, hd, hn, hh⟩ := exists_prefixes _
    exact ⟨u, e, hd, Nat.le_of_eq hn, hh⟩

end Grammar

/-! ## Whole lists -/

namespace Parsing

open Grammar

theorem height_le_greatestHeight {budget : Nat} {tokens : List Token} {e : Expr}
    (h : Expr.ofTokens budget tokens = .ok e) : e.height ≤ greatestHeight budget := by
  obtain ⟨u, rest, -, -, hd, hneed⟩ := ofTokens_eq_ok_iff_derives.1 h
  have hh : e.height ≤ e.chainLength .equality + operandHeight .equality budget := heightWithin_of_derives hd budget hneed
  have hc := Nat.le_trans (chainLength_le_need e .equality) hneed
  simp only [operandHeight, Layer.rank, greatestHeight] at *
  omega

theorem exists_greatestHeight (budget : Nat) :
    ∃ tokens e, Expr.ofTokens budget tokens = .ok e ∧ e.height = greatestHeight budget := by
  obtain ⟨u, e, hd, hn, hh⟩ := exists_unaryHeight budget
  obtain ⟨u', e', hd', hn', hh'⟩ := exists_chains hd budget
  refine ⟨u', e', ofTokens_eq_ok_iff_derives.2 ⟨u', [], by rw [List.append_nil], ?_, hd', by omega⟩, ?_⟩
  · intro t ht; cases ht
  · unfold greatestHeight; omega

/-- **The height that a budget lets through.**  No accepted tree is higher than `greatestHeight`, and some tree is as high;
so the budget itself bounds the height of what it accepts only if it is zero. -/
theorem greatestHeight_spec (budget : Nat) :
    (∀ tokens e, Expr.ofTokens budget tokens = .ok e → e.height ≤ greatestHeight budget) ∧
    (∃ tokens e, Expr.ofTokens budget tokens = .ok e ∧ e.height = greatestHeight budget) ∧
    ((∀ tokens e, Expr.ofTokens budget tokens = .ok e → e.height ≤ budget) ↔ budget = 0) := by
  refine ⟨fun _ _ => height_le_greatestHeight, exists_greatestHeight budget, fun h => ?_, ?_⟩
  · obtain ⟨tokens, e, ho, hh⟩ := exists_greatestHeight budget
    have := h tokens e ho
    unfold greatestHeight at hh
    omega
  · rintro rfl _ _ ho
    exact height_le_greatestHeight ho

/-- The default budget lets through a tree of more than thirty thousand levels. -/
example : greatestHeight defaultBudget = 33347 := by decide

/-- A unit pays for the prefix operator and then, given back, for the link on top of it. -/
theorem ofTokens_not_true_eq_nil :
    Expr.ofTokens 1 [UnaryOp.token .not 1, ⟨.keyword .trueWord, "true", none, 1⟩, BinaryOp.token .equal 1, nilToken,
      Token.eof 1] = .ok (.binaryAt (.unaryAt .not (.literal (.bool true)) 1) .equal (.literal .nil) 1) ∧
    1 < (Expr.binaryAt (.unaryAt .not (.literal (.bool true)) 1) .equal (.literal .nil) 1).height := by
  have hnot : Derives .unary [UnaryOp.token .not 1, ⟨.keyword .trueWord, "true", none, 1⟩]
      (.unaryAt .not (.literal (.bool true)) 1) :=
    .withPrefix (mem_prefixes_iff.2 rfl) rfl (.primary (.literal (.trueWord rfl)))
  refine ⟨ofTokens_eq_ok_iff_derives.2 ⟨[_, _] ++ BinaryOp.token .equal 1 :: [nilToken], [Token.eof 1], rfl, ?_, ?_, ?_⟩,
    by decide⟩
  · intro t ht; cases ht; rfl
  · exact .link (hnot.layer_of_unary _) (mem_operators_iff.2 ⟨rfl, rfl⟩) rfl (derives_nil.operand_of_unary _)
  · decide

end Parsing
end LoxExpr
