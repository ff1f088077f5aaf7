import LoxExpr.Proofs.Charge
import LoxExpr.Proofs.Outcome
import LoxExpr.Proofs.Places
/-!
# Lines: what changes when a text is moved down

A text below `k` more lines is scanned to the same tokens with `k` added to their lines, which are read as the same tree with
the moved operators.  The tree costs the same, and it is evaluated to the same value, or stops for the same reason at the
moved operator.  Each part has its own `down k`, and each stage commutes with it.
-/
namespace LoxExpr

/-! ## Moving down -/

def Token.down (k : Nat) (t : Token) : Token := { t with line := t.line + k }

def LexError.down (k : Nat) (e : LexError) : LexError := { e with line := e.line + k }

def Scan.down (k : Nat) (s : Scan) : Scan := ⟨s.tokens.map (Token.down k), s.errors.map (LexError.down k)⟩

def RuntimeError.down (k : Nat) (e : RuntimeError) : RuntimeError := { e with operator := e.operator.down k }

/-- A misuse has no place in the text. -/
def Stop.down (k : Nat) : Stop → Stop
  | failed e => failed (e.down k)
  | misused m => misused m

def Expr.down (k : Nat) : Expr → Expr
  | literal v => literal v
  | group e => group (e.down k)
  | unary op t e => unary op (t.down k) (e.down k)
  | binary l op t r => binary (l.down k) op (t.down k) (r.down k)

variable {k : Nat}

@[simp] theorem Expr.down_zero (e : Expr) : e.down 0 = e := by
  induction e with
  | literal v => rfl
  | group e ih => simp only [down, ih]
  | unary op t e ih => simp only [down, ih]; rfl
  | binary l op t r ihl ihr => simp only [down, ihl, ihr]; rfl

/-! ## Scanning -/

theorem Placed.token?_down (p : Placed) (line : Nat) : p.token? (line + k) = (p.token? line).map (Token.down k) := by
  unfold token?
  rw [Option.map_map, Placed.line, Nat.add_right_comm]
  rfl

theorem Placed.error?_down (p : Placed) (line : Nat) : p.error? (line + k) = (p.error? line).map (LexError.down k) := by
  unfold error?
  rw [Option.map_map, Placed.line, Nat.add_right_comm]
  rfl

theorem Scan.ofSegments_down (line : Nat) (ss : List Segment) : ofSegments (line + k) ss = (ofSegments line ss).down k := by
  rw [ofSegments_eq, ofSegments_eq, down, List.map_append, List.map_filterMap, List.map_filterMap, Nat.add_right_comm]
  simp only [← Placed.token?_down, ← Placed.error?_down]
  rfl

/-! ## Reading -/

namespace Grammar

theorem Denotes.down {t : Token} {v : Value} (h : Denotes t v) : Denotes (t.down k) v := by
  cases h with
  | number hk hv => exact .number hk hv
  | string hk hv => exact .string hk hv
  | trueWord hk => exact .trueWord hk
  | falseWord hk => exact .falseWord hk
  | nilWord hk => exact .nilWord hk

theorem Derives.down {r : Parsing.Rule} {u : List Token} {e : Expr} (h : Derives r u e) :
    Derives r (u.map (Token.down k)) (e.down k) := by
  induction h with
  | operand _ ih => exact .operand ih
  | link _ ho hk _ ihl ihr => rw [List.map_append]; exact .link ihl ho hk ihr
  | primary _ ih => exact .primary ih
  | withPrefix hy hk _ ih => exact .withPrefix hy hk ih
  | literal hv => exact .literal hv.down
  | group hk _ hk' ih => rw [List.map_cons, List.map_append]; exact .group hk ih hk'

end Grammar

@[simp] theorem Expr.chainLength_down (e : Expr) (l : Layer) : (e.down k).chainLength l = e.chainLength l := by
  induction e with
  | binary left op t right ih _ => simp only [down, chainLength, ih]
  | _ => rfl

@[simp] theorem Expr.need_down (e : Expr) : (e.down k).need = e.need := by
  induction e with
  | literal v => rfl
  | group e ih => simp only [down, need, ih]
  | unary op t e ih => simp only [down, need, ih]
  | binary l op t r ihl ihr => simp only [down, need, ihl, ihr, chainLength_down]

/-! ## Evaluation -/

theorem mapError_down_bind {x : Except Stop Value} {f : Value → Except Stop Value} :
    (x >>= f).mapError (Stop.down k) = x.mapError (Stop.down k) >>= fun v => (f v).mapError (Stop.down k) := by
  cases x <;> rfl

theorem UnaryOp.apply_down (op : UnaryOp) (t : Token) (v : Value) :
    op.apply (t.down k) v = (op.apply t v).mapError (Stop.down k) := by
  rcases op.apply_cases v with ⟨u, h⟩ | ⟨c, h⟩ <;> rw [h, h] <;> rfl

theorem BinaryOp.apply_down (op : BinaryOp) (t : Token) (v w : Value) :
    op.apply (t.down k) v w = (op.apply t v w).mapError (Stop.down k) := by
  rcases op.apply_cases v w with ⟨u, h⟩ | ⟨c, h⟩ <;> rw [h, h] <;> rfl

/-- **A tree that is moved down is evaluated alike**: it has the same value, or stops at the moved operator. -/
theorem Expr.evaluate_down (e : Expr) : (e.down k).evaluate = e.evaluate.mapError (Stop.down k) := by
  induction e with
  | literal v => rfl
  | group e ih => exact ih
  | unary op t e ih => simp only [down, evaluate, ih, mapError_down_bind, op.apply_down]
  | binary l op t r ihl ihr => simp only [down, evaluate, ihl, ihr, mapError_down_bind, op.apply_down]

end LoxExpr
