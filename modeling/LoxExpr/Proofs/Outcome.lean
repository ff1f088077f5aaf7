import LoxExpr.Evaluation
/-!
# Outcomes: evaluation without its tokens

The token of an operator is looked at only when the operator refuses its operands, and then only to say where: that is what
an operator can come to (`apply_cases`).  So what an evaluation comes to, its value or the reason why it has none, does not
depend on tokens; `outcome_bind` carries that through the operands of a tree and `outcome_apply` through its operators.
-/
namespace LoxExpr

/-- What is wrong, without the token it is wrong at. -/
def Stop.reason : Stop → RuntimeError.Cause ⊕ Misuse
  | failed e => .inl e.cause
  | misused m => .inr m

/-- **The outcome of an evaluation**, its value or what is wrong. -/
def outcome (x : Except Stop Value) : Except (RuntimeError.Cause ⊕ Misuse) Value := x.mapError Stop.reason

theorem outcome_bind {x y : Except Stop Value} {f g : Value → Except Stop Value} (h : outcome x = outcome y)
    (hfg : ∀ v, outcome (f v) = outcome (g v)) : outcome (x >>= f) = outcome (y >>= g) := by
  cases x with
  | ok v =>
    cases y with
    | ok w =>
      cases h
      exact hfg v
    | error b => cases h
  | error a =>
    cases y with
    | ok w => cases h
    | error b =>
      have hab : a.reason = b.reason := Except.error.inj h
      exact congrArg Except.error hab

/-! ## What an operator can come to -/

theorem Family.onNumbers_cases (v w : Value) {f : Number → Number → Except Stop Value} (hf : ∀ x y, ∃ u, f x y = .ok u) :
    (∃ u, ∀ t, onNumbers t v w f = .ok u) ∨ ∃ c, ∀ t, onNumbers t v w f = .error (.failed ⟨c, t⟩) := by
  unfold onNumbers
  cases v.asNumber? with
  | none => exact .inr ⟨_, fun _ => rfl⟩
  | some x =>
    cases w.asNumber? with
    | none => exact .inr ⟨_, fun _ => rfl⟩
    | some y => exact .inl ((hf x y).imp fun _ hu _ => hu)

/-- **An operator has a value, or it refuses its operands at its token**, whatever that is.  Applied by its own family it is
never misused. -/
theorem BinaryOp.apply_cases (op : BinaryOp) (v w : Value) :
    (∃ u, ∀ t, op.apply t v w = .ok u) ∨ ∃ c, ∀ t, op.apply t v w = .error (.failed ⟨c, t⟩) := by
  cases op with
  | equal | notEqual => exact .inl ⟨_, fun _ => rfl⟩
  | greater | greaterEqual | less | lessEqual | sub | mul | div =>
    exact Family.onNumbers_cases v w fun _ _ => ⟨_, rfl⟩
  | add =>
    cases v <;> cases w <;> first | exact .inl ⟨_, fun _ => rfl⟩ | exact .inr ⟨_, fun _ => rfl⟩

theorem UnaryOp.apply_cases (op : UnaryOp) (v : Value) :
    (∃ u, ∀ t, op.apply t v = .ok u) ∨ ∃ c, ∀ t, op.apply t v = .error (.failed ⟨c, t⟩) := by
  cases op with
  | not => exact .inl ⟨_, fun _ => rfl⟩
  | negate => cases v <;> first | exact .inl ⟨_, fun _ => rfl⟩ | exact .inr ⟨_, fun _ => rfl⟩

theorem BinaryOp.outcome_apply (op : BinaryOp) (t t' : Token) (v w : Value) :
    outcome (op.apply t v w) = outcome (op.apply t' v w) := by
  rcases op.apply_cases v w with ⟨u, h⟩ | ⟨c, h⟩
  · rw [h t, h t']
  · rw [h t, h t']; rfl

theorem UnaryOp.outcome_apply (op : UnaryOp) (t t' : Token) (v : Value) : outcome (op.apply t v) = outcome (op.apply t' v) := by
  rcases op.apply_cases v with ⟨u, h⟩ | ⟨c, h⟩
  · rw [h t, h t']
  · rw [h t, h t']; rfl

end LoxExpr
