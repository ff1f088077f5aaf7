import LoxExpr.Evaluation
/-!
# Typing: what an evaluation comes to, without its values

Whether an operator takes its operands depends on what they are and not on what they are worth: no divisor is zero and no
number is too great for it, and no operand is skipped.  So the rules are written here once more on *variants* alone
(`UnaryOp.result?`, `BinaryOp.result?`), and a tree is typed by them from left to right (`Expr.typing`).

`Expr.map_variant_evaluate` says that typing foresees evaluation, the variant of the value or the very error.  Two trees that
differ only in the worth of their literals are typed alike, so they are evaluated alike (`Expr.evaluate_of_sameShape`).
-/
namespace LoxExpr

/-! ## Variants, and the rules on them -/

/-- **What a value is**, whatever it is worth. -/
inductive Variant where
  | number | string | bool | nil
deriving DecidableEq

def Value.variant : Value → Variant
  | number _ => .number
  | string _ => .string
  | bool _ => .bool
  | nil => .nil

/-- **The rules of the prefix operators**: anything has a truth value to turn around, and only a number an opposite. -/
def UnaryOp.result? : UnaryOp → Variant → Option Variant
  | not, _ => some .bool
  | negate, .number => some .number
  | negate, _ => none

/-- **The rules of the binary operators**: equality takes any two operands, an order two numbers, addition two numbers or two
strings, and the rest of arithmetic two numbers. -/
def BinaryOp.result? : BinaryOp → Variant → Variant → Option Variant
  | equal, _, _ | notEqual, _, _ => some .bool
  | greater, .number, .number | greaterEqual, .number, .number | less, .number, .number | lessEqual, .number, .number =>
    some .bool
  | add, .number, .number | sub, .number, .number | mul, .number, .number | div, .number, .number => some .number
  | add, .string, .string => some .string
  | _, _, _ => none

/-- What an operator says to operands that it does not take. -/
def BinaryOp.refusal : BinaryOp → RuntimeError.Cause
  | add => .operandsMustBeNumbersOrStrings
  | _ => .operandsMustBeNumbers

def UnaryOp.typing (op : UnaryOp) (token : Token) (a : Variant) : Except RuntimeError Variant :=
  match op.result? a with
  | some r => .ok r
  | none => .error ⟨.operandMustBeNumber, token⟩

def BinaryOp.typing (op : BinaryOp) (token : Token) (a b : Variant) : Except RuntimeError Variant :=
  match op.result? a b with
  | some r => .ok r
  | none => .error ⟨op.refusal, token⟩

/-- **The variant of a tree by the rules**, or the error of the first operator from the left that does not take its
operands. -/
def Expr.typing : Expr → Except RuntimeError Variant
  | literal v => .ok v.variant
  | group e => e.typing
  | unary op token e => do
    let a ← e.typing
    op.typing token a
  | binary l op token r => do
    let a ← l.typing
    let b ← r.typing
    op.typing token a b

/-! ## Typing foresees evaluation -/

/-- What an evaluation comes to as far as typing can know. -/
def foreseen (x : Except RuntimeError Variant) : Except Stop Variant := x.mapError Stop.failed

theorem UnaryOp.map_variant_apply (op : UnaryOp) (t : Token) (v : Value) :
    (op.apply t v).map Value.variant = foreseen (op.typing t v.variant) := by
  cases op <;> cases v <;> rfl

/-- Two numbers are handed on whatever they are worth, and all else is refused. -/
theorem Family.map_variant_onNumbers {f : Number → Number → Except Stop Value} {r : Variant}
    (hf : ∀ x y, (f x y).map Value.variant = .ok r) (t : Token) (v w : Value) :
    (onNumbers t v w f).map Value.variant =
      if v.variant = .number ∧ w.variant = .number then .ok r else .error (.failed ⟨.operandsMustBeNumbers, t⟩) := by
  cases v with
  | number x =>
    cases w with
    | number y => exact hf x y
    | _ => rfl
  | _ => rfl

theorem BinaryOp.map_variant_apply (op : BinaryOp) (t : Token) (v w : Value) :
    (op.apply t v w).map Value.variant = foreseen (op.typing t v.variant w.variant) := by
  cases op with
  | equal | notEqual => rfl
  | add => cases v <;> cases w <;> rfl
  | greater | greaterEqual | less | lessEqual | sub | mul | div =>
    refine (Family.map_variant_onNumbers (fun x y => rfl) t v w).trans ?_
    cases v <;> cases w <;> rfl

/-- A step behind an operand is foreseen if the operand is. -/
theorem map_variant_bind {x : Except Stop Value} {f : Value → Except Stop Value} {y : Except RuntimeError Variant}
    {g : Variant → Except RuntimeError Variant} (hx : x.map Value.variant = foreseen y)
    (hf : ∀ v, (f v).map Value.variant = foreseen (g v.variant)) : (x >>= f).map Value.variant = foreseen (y >>= g) := by
  cases x with
  | error s =>
    cases y with
    | error err => exact hx
    | ok a => cases hx
  | ok v =>
    cases y with
    | error err => cases hx
    | ok a =>
      cases hx
      exact hf v

/-- **Typing foresees evaluation**: its value has the variant that the rules give, and it stops where they refuse, for the same
reason. -/
theorem Expr.map_variant_evaluate (e : Expr) : e.evaluate.map Value.variant = foreseen e.typing := by
  induction e with
  | literal v => rfl
  | group e ih => exact ih
  | unary op t e ih => exact map_variant_bind ih (fun v => op.map_variant_apply t v)
  | binary l op t r ihl ihr =>
    exact map_variant_bind ihl (fun v => map_variant_bind ihr (fun w => op.map_variant_apply t v w))

theorem Expr.evaluate_of_typing_eq_ok {e : Expr} {a : Variant} (h : e.typing = .ok a) :
    ∃ v, e.evaluate = .ok v ∧ v.variant = a := by
  have hmap := e.map_variant_evaluate
  rw [h] at hmap
  cases he : e.evaluate with
  | error s => rw [he] at hmap; cases hmap
  | ok v => rw [he] at hmap; exact ⟨v, rfl, Except.ok.inj hmap⟩

theorem Expr.evaluate_of_typing_eq_error {e : Expr} {err : RuntimeError} (h : e.typing = .error err) :
    e.evaluate = .error (.failed err) := by
  have hmap := e.map_variant_evaluate
  rw [h] at hmap
  cases he : e.evaluate with
  | error s => rw [he] at hmap; exact congrArg Except.error (Except.error.inj hmap)
  | ok v => rw [he] at hmap; cases hmap

/-! ## Trees that differ in the worth of their literals -/

/-- **Trees of the same shape**: the same operators with the same tokens, and at each place of a literal a literal of the same
variant. -/
inductive Expr.SameShape : Expr → Expr → Prop
  | literal {v w} : v.variant = w.variant → SameShape (.literal v) (.literal w)
  | group {a b} : SameShape a b → SameShape (.group a) (.group b)
  | unary {op t a b} : SameShape a b → SameShape (.unary op t a) (.unary op t b)
  | binary {op t a b c d} : SameShape a b → SameShape c d → SameShape (.binary a op t c) (.binary b op t d)

theorem Expr.SameShape.typing_eq {e e' : Expr} (h : SameShape e e') : e.typing = e'.typing := by
  induction h with
  | literal hv => exact congrArg Except.ok hv
  | group _ ih => exact ih
  | unary _ ih => simp only [typing, ih]
  | binary _ _ ihl ihr => simp only [typing, ihl, ihr]

/-- **What an evaluation comes to depends on the variants of the literals alone.**  Trees of the same shape either both have a
value, of the variant that the rules give to both, or both fail with the same error, the one that the rules give. -/
theorem Expr.evaluate_of_sameShape {e e' : Expr} (h : SameShape e e') :
    (∃ a v v', e.typing = .ok a ∧ e'.typing = .ok a ∧ e.evaluate = .ok v ∧ e'.evaluate = .ok v' ∧ v.variant = a ∧
      v'.variant = a) ∨
    ∃ err, e.typing = .error err ∧ e'.typing = .error err ∧ e.evaluate = .error (.failed err) ∧
      e'.evaluate = .error (.failed err) := by
  have heq := h.typing_eq
  cases he : e.typing with
  | ok a =>
    rw [he] at heq
    obtain ⟨v, hv, hvar⟩ := evaluate_of_typing_eq_ok he
    obtain ⟨v', hv', hvar'⟩ := evaluate_of_typing_eq_ok heq.symm
    exact .inl ⟨a, v, v', rfl, heq.symm, hv, hv', hvar, hvar'⟩
  | error err =>
    rw [he] at heq
    exact .inr ⟨err, rfl, heq.symm, evaluate_of_typing_eq_error he, evaluate_of_typing_eq_error heq.symm⟩

/-- A string subtracted on the second line from the comparison of a quotient. -/
def mixedDifference (x y z : Number) (s : String) : Expr :=
  .binaryAt (.group (.binaryAt (.binaryAt (.literal (.number x)) .div (.literal (.number y)) 1) .less (.literal (.number z)) 1))
    .sub (.literal (.string s)) 2

/-- A quotient by zero, a comparison with a `nan` and an empty string fail no earlier and no later than others do. -/
theorem evaluate_mixedDifference :
    Expr.SameShape (mixedDifference (.finite false ⟨1, by decide⟩) (.finite true .zero) (.nan false) "")
      (mixedDifference (.infinity true) (.nan true) (.finite false .zero) "text") ∧
    (mixedDifference (.finite false ⟨1, by decide⟩) (.finite true .zero) (.nan false) "").evaluate =
      .error (.failed ⟨.operandsMustBeNumbers, BinaryOp.token .sub 2⟩) ∧
    (mixedDifference (.infinity true) (.nan true) (.finite false .zero) "text").evaluate =
      .error (.failed ⟨.operandsMustBeNumbers, BinaryOp.token .sub 2⟩) := by
  have h : Expr.SameShape (mixedDifference (.finite false ⟨1, by decide⟩) (.finite true .zero) (.nan false) "")
      (mixedDifference (.infinity true) (.nan true) (.finite false .zero) "text") :=
    .binary (.group (.binary (.binary (.literal rfl) (.literal rfl)) (.literal rfl))) (.literal rfl)
  have htyping : (mixedDifference (.finite false ⟨1, by decide⟩) (.finite true .zero) (.nan false) "").typing =
      .error ⟨.operandsMustBeNumbers, BinaryOp.token .sub 2⟩ := rfl
  rcases Expr.evaluate_of_sameShape h with ⟨a, v, v', ha, -⟩ | ⟨err, herr, -, he, he'⟩
  · cases htyping.symm.trans ha
  · cases htyping.symm.trans herr
    exact ⟨h, he, he'⟩

end LoxExpr
