import LoxExpr.Proofs.Outcome
import LoxExpr.Proofs.Typing
/-!
# Postfix code: evaluation as the run of a stack machine

A tree can be written down in the order of its evaluation: the literals to be pushed, and each operator behind the code of its
operands.  A group leaves no trace in that.  A machine that runs the code on a stack has no tree and no recursion, only the
next instruction and the values so far; it stands still at the first operator that refuses its operands.

`Expr.evaluate_iff_execute` says that this is evaluation: the machine ends with the one value of the tree, or it stands still
at the very operator whose error the evaluation has.
-/
namespace LoxExpr

/-! ## The machine -/

/-- **An instruction**: a value for the stack, or an operator for the values on top of it. -/
inductive Instr where
  | push (v : Value)
  | unary (op : UnaryOp) (token : Token)
  | binary (op : BinaryOp) (token : Token)
deriving DecidableEq

/-- Why the machine stands still: the operator does not take its operands, or there are too few values. -/
inductive Fault where
  | refused
  | starved
deriving DecidableEq

/-- What a run comes to: the stack behind the last instruction, or the position of the one that it stands still at. -/
inductive Halt where
  | ended (stack : List Value)
  | stopped (position : Nat) (fault : Fault)
deriving DecidableEq

namespace Instr

/-- The stack with the result of an operator, if it has one. -/
def pushResult (x : Except Stop Value) (stack : List Value) : Except Fault (List Value) :=
  match x with
  | .ok v => .ok (v :: stack)
  | .error _ => .error .refused

/-- **One instruction.**  The right operand lies on the left one. -/
def step : Instr → List Value → Except Fault (List Value)
  | push v, stack => .ok (v :: stack)
  | unary op t, v :: stack => pushResult (op.apply t v) stack
  | binary op t, w :: v :: stack => pushResult (op.apply t v w) stack
  | _, _ => .error .starved

/-- The error of an operator of this kind, if it can have one. -/
def refusal? : Instr → Option RuntimeError
  | push _ | unary .not _ | binary .equal _ | binary .notEqual _ => none
  | unary .negate t => some ⟨.operandMustBeNumber, t⟩
  | binary op t => some ⟨op.refusal, t⟩

end Instr

/-- **A run** of instructions, the first of which stands at `position`. -/
def execute (position : Nat) : List Instr → List Value → Halt
  | [], stack => .ended stack
  | i :: is, stack =>
    match i.step stack with
    | .ok stack => execute (position + 1) is stack
    | .error fault => .stopped position fault

/-- **The code of a tree**: the left operand, the right one, the operator. -/
def Expr.code : Expr → List Instr
  | literal v => [.push v]
  | group e => e.code
  | unary op t e => e.code ++ [.unary op t]
  | binary l op t r => l.code ++ (r.code ++ [.binary op t])

/-! ## One operator -/

/-- An operator has a value on every stack, or is refused on every stack with the error of its kind. -/
theorem Instr.step_unary (op : UnaryOp) (t : Token) (v : Value) :
    (∃ u, op.apply t v = .ok u ∧ ∀ stack, (unary op t).step (v :: stack) = .ok (u :: stack)) ∨
      ∃ err, op.apply t v = .error (.failed err) ∧ (unary op t).refusal? = some err ∧
        ∀ stack, (unary op t).step (v :: stack) = .error .refused := by
  cases op with
  | not => exact .inl ⟨_, rfl, fun _ => rfl⟩
  | negate =>
    cases v with
    | number x => exact .inl ⟨_, rfl, fun _ => rfl⟩
    | _ => exact .inr ⟨_, rfl, rfl, fun _ => rfl⟩

theorem Instr.step_binary (op : BinaryOp) (t : Token) (v w : Value) :
    (∃ u, op.apply t v w = .ok u ∧ ∀ stack, (binary op t).step (w :: v :: stack) = .ok (u :: stack)) ∨
      ∃ err, op.apply t v w = .error (.failed err) ∧ (binary op t).refusal? = some err ∧
        ∀ stack, (binary op t).step (w :: v :: stack) = .error .refused := by
  have hmap := op.map_variant_apply t v w
  rcases op.apply_cases v w with ⟨u, hu⟩ | ⟨c, hc⟩
  · exact .inl ⟨u, hu t, fun stack => by simp only [step, hu t, pushResult]⟩
  · refine .inr ⟨_, hc t, ?_, fun stack => by simp only [step, hc t, pushResult]⟩
    rw [hc t] at hmap
    cases op with
    | equal | notEqual => cases hc t
    | add | sub | mul | div | greater | greaterEqual | less | lessEqual =>
      simp only [BinaryOp.typing] at hmap
      split at hmap
      · cases hmap
      · cases hmap; rfl

/-! ## Pieces of code

What a piece of code does is said for every stack below its operands and all code behind it, so that pieces can be joined. -/

/-- **A piece of code that runs through**: with `vs` on top it leaves `ws` there. -/
def Turns (vs : List Value) (p : List Instr) (ws : List Value) : Prop :=
  ∀ n rest stack, execute n (p ++ rest) (vs ++ stack) = execute (n + p.length) rest (ws ++ stack)

/-- **A piece of code that stands still**: with `vs` on top it comes to an operator that refuses, whose error is `err`. -/
def Stops (vs : List Value) (p : List Instr) (err : RuntimeError) : Prop :=
  ∃ i ins, p[i]? = some ins ∧ ins.refusal? = some err ∧
    ∀ n rest stack, execute n (p ++ rest) (vs ++ stack) = .stopped (n + i) .refused

section
variable {vs us ws : List Value} {p q : List Instr} {ins : Instr} {err : RuntimeError}

theorem Turns.single (h : ∀ stack, ins.step (vs ++ stack) = .ok (ws ++ stack)) : Turns vs [ins] ws := by
  intro n rest stack
  simp only [List.singleton_append, execute, h stack, List.length_singleton]

theorem Turns.append (hp : Turns vs p us) (hq : Turns us q ws) : Turns vs (p ++ q) ws := by
  intro n rest stack
  rw [List.append_assoc, hp, hq, List.length_append, Nat.add_assoc]

/-- What lies below stays there. -/
theorem Turns.above (h : Turns vs p ws) (us : List Value) : Turns (vs ++ us) p (ws ++ us) := by
  intro n rest stack
  rw [List.append_assoc, List.append_assoc, h]

theorem Stops.single (herr : ins.refusal? = some err) (h : ∀ stack, ins.step (vs ++ stack) = .error .refused) :
    Stops vs [ins] err := by
  refine ⟨0, ins, rfl, herr, fun n rest stack => ?_⟩
  simp only [List.singleton_append, execute, h stack, Nat.add_zero]

theorem Stops.append (h : Stops vs p err) (q : List Instr) : Stops vs (p ++ q) err := by
  obtain ⟨i, ins, hi, herr, hrun⟩ := h
  refine ⟨i, ins, ?_, herr, fun n rest stack => by rw [List.append_assoc, hrun]⟩
  rw [List.getElem?_append_left (List.getElem?_eq_some_iff.1 hi).1, hi]

theorem Stops.behind (hp : Turns vs p us) (hq : Stops us q err) : Stops vs (p ++ q) err := by
  obtain ⟨i, ins, hi, herr, hrun⟩ := hq
  refine ⟨p.length + i, ins, ?_, herr, fun n rest stack => ?_⟩
  · rw [List.getElem?_append_right (Nat.le_add_right _ _), Nat.add_sub_cancel_left, hi]
  · rw [List.append_assoc, hp, hrun, Nat.add_assoc]

theorem Stops.above (h : Stops vs p err) (us : List Value) : Stops (vs ++ us) p err := by
  obtain ⟨i, ins, hi, herr, hrun⟩ := h
  exact ⟨i, ins, hi, herr, fun n rest stack => by rw [List.append_assoc, hrun]⟩

end

/-- **The code of a tree runs through to the value of the tree**, or it stands still at the operator whose error the tree
has. -/
theorem Expr.turns_or_stops (e : Expr) : (∃ v, e.evaluate = .ok v ∧ Turns [] e.code [v]) ∨
    ∃ err, e.evaluate = .error (.failed err) ∧ Stops [] e.code err := by
  induction e with
  | literal v => exact .inl ⟨v, rfl, .single fun stack => rfl⟩
  | group e ih => exact ih
  | unary op t e ih =>
    rcases ih with ⟨v, hv, hc⟩ | ⟨err, herr, hc⟩
    · simp only [evaluate, hv]
      rcases Instr.step_unary op t v with ⟨u, hu, hstep⟩ | ⟨err, herr, hkind, hstep⟩
      · exact .inl ⟨u, hu, hc.append (.single hstep)⟩
      · exact .inr ⟨err, herr, .behind hc (.single hkind hstep)⟩
    · exact .inr ⟨err, by simp only [evaluate, herr]; rfl, hc.append _⟩
  | binary l op t r ihl ihr =>
    rcases ihl with ⟨v, hv, hl⟩ | ⟨err, herr, hl⟩
    · simp only [evaluate, hv]
      -- the right operand runs above the value of the left one
      rcases ihr with ⟨w, hw, hr⟩ | ⟨err, herr, hr⟩
      · simp only [hw]
        have hoperands : Turns [] (l.code ++ r.code) [w, v] := hl.append (hr.above [v])
        rw [code, ← List.append_assoc]
        rcases Instr.step_binary op t v w with ⟨u, hu, hstep⟩ | ⟨err, herr, hkind, hstep⟩
        · exact .inl ⟨u, hu, hoperands.append (.single hstep)⟩
        · exact .inr ⟨err, herr, .behind hoperands (.single hkind hstep)⟩
      · exact .inr ⟨err, by simp only [herr]; rfl, .behind hl ((hr.above [v]).append _)⟩
    · exact .inr ⟨err, by simp only [evaluate, herr]; rfl, hl.append _⟩

/-! ## Tokens -/

/-- The instruction with another token, if it has one. -/
def Instr.withToken (t : Token) : Instr → Instr
  | push v => push v
  | unary op _ => unary op t
  | binary op _ => binary op t

/-- **The tree with other tokens**: an operator has the one that is given for its position in the code. -/
def Expr.withTokens (tokens : Nat → Token) : Expr → Expr
  | literal v => literal v
  | group e => group (e.withTokens tokens)
  | unary op _ e => unary op (tokens e.code.length) (e.withTokens tokens)
  | binary l op _ r =>
    binary (l.withTokens tokens) op (tokens (l.code.length + r.code.length))
      (r.withTokens fun i => tokens (l.code.length + i))

/-- The machine does not look at tokens. -/
theorem Instr.step_withToken (t : Token) (ins : Instr) (stack : List Value) : (ins.withToken t).step stack = ins.step stack := by
  cases ins with
  | push v => rfl
  | unary op t' =>
    match stack with
    | [] => rfl
    | v :: stack => rcases op.apply_cases v with ⟨u, h⟩ | ⟨c, h⟩ <;> simp only [withToken, step, h, pushResult]
  | binary op t' =>
    match stack with
    | [] => rfl
    | [w] => rfl
    | w :: v :: stack => rcases op.apply_cases v w with ⟨u, h⟩ | ⟨c, h⟩ <;> simp only [withToken, step, h, pushResult]

theorem execute_withTokens (tokens : Nat → Token) (p : List Instr) (n : Nat) (stack : List Value) :
    execute n (p.mapIdx fun i ins => ins.withToken (tokens i)) stack = execute n p stack := by
  induction p generalizing tokens n stack with
  | nil => rfl
  | cons ins p ih =>
    rw [List.mapIdx_cons, execute, execute, Instr.step_withToken]
    cases ins.step stack with
    | ok stack => exact ih (fun i => tokens (i + 1)) _ _
    | error fault => rfl

theorem Expr.code_withTokens (e : Expr) (tokens : Nat → Token) :
    (e.withTokens tokens).code = e.code.mapIdx fun i ins => ins.withToken (tokens i) := by
  induction e generalizing tokens with
  | literal v => rfl
  | group e ih => exact ih tokens
  | unary op t e ih =>
    simp only [withTokens, code, ih, List.mapIdx_append, List.mapIdx_cons, List.mapIdx_nil, Instr.withToken, Nat.zero_add]
  | binary l op t r ihl ihr =>
    simp only [withTokens, code, ihl, ihr, List.mapIdx_append, List.mapIdx_cons, List.mapIdx_nil, Instr.withToken, Nat.zero_add,
      Nat.add_comm, Nat.add_left_comm]

theorem Instr.operator_of_refusal? {t : Token} {ins : Instr} {err : RuntimeError}
    (h : (ins.withToken t).refusal? = some err) : err.operator = t := by
  cases ins with
  | push v => cases h
  | unary op t' => cases op <;> cases h; rfl
  | binary op t' => cases op <;> cases h <;> rfl

/-! ## Whole runs -/

theorem Expr.execute_code (e : Expr) : (∃ v, e.evaluate = .ok v ∧ execute 0 e.code [] = .ended [v]) ∨
    ∃ i ins err, e.evaluate = .error (.failed err) ∧ e.code[i]? = some ins ∧ ins.refusal? = some err ∧
      execute 0 e.code [] = .stopped i .refused := by
  rcases e.turns_or_stops with ⟨v, hv, hc⟩ | ⟨err, herr, i, ins, hi, hkind, hc⟩
  · have hrun := hc 0 [] []
    rw [List.append_nil] at hrun
    exact .inl ⟨v, hv, hrun⟩
  · have hrun := hc 0 [] []
    rw [List.append_nil, Nat.zero_add] at hrun
    exact .inr ⟨i, ins, err, herr, hi, hkind, hrun⟩

theorem Expr.execute_code_eq_ended_iff (e : Expr) (v : Value) : execute 0 e.code [] = .ended [v] ↔ e.evaluate = .ok v := by
  rcases e.execute_code with ⟨u, hu, hrun⟩ | ⟨i, ins, err, herr, -, -, hrun⟩
  · rw [hu, hrun]
    simp
  · rw [herr, hrun]
    simp

theorem Expr.exists_refused_iff (e : Expr) (err : RuntimeError) :
    (∃ i ins, execute 0 e.code [] = .stopped i .refused ∧ e.code[i]? = some ins ∧ ins.refusal? = some err) ↔
      e.evaluate = .error (.failed err) := by
  rcases e.execute_code with ⟨u, hu, hrun⟩ | ⟨i, ins, err', herr, hi, hkind, hrun⟩
  · rw [hu, hrun]
    simp
  · rw [herr, hrun]
    constructor
    · rintro ⟨j, ins', hj, hins, h⟩
      cases hj
      cases hi.symm.trans hins
      cases hkind.symm.trans h
      rfl
    · intro h
      cases h
      exact ⟨i, ins, rfl, hi, hkind⟩

/-- A value depends on nothing but the code, so groups do not count. -/
theorem Expr.evaluate_eq_of_code_eq {e e' : Expr} (h : e'.code = e.code) : e'.evaluate = e.evaluate := by
  rcases e.execute_code with ⟨v, hv, -⟩ | ⟨-, -, err, herr, -⟩
  · rw [hv, ← execute_code_eq_ended_iff, h, execute_code_eq_ended_iff, hv]
  · rw [herr, ← exists_refused_iff, h, exists_refused_iff, herr]

/-- Whatever the tokens are, the machine stands still at the same position. -/
theorem Expr.execute_code_withTokens (e : Expr) (tokens : Nat → Token) :
    execute 0 (e.withTokens tokens).code [] = execute 0 e.code [] := by
  rw [code_withTokens, execute_withTokens]

/-- **The node of an error**: the machine stands still at a node if, and only if, the error is that node's whatever tokens the
nodes have. -/
theorem Expr.execute_code_eq_stopped_iff (e : Expr) (i : Nat) : execute 0 e.code [] = .stopped i .refused ↔
    ∀ tokens, ∃ ins err, (e.withTokens tokens).code[i]? = some ins ∧ ins.refusal? = some err ∧ err.operator = tokens i ∧
      (e.withTokens tokens).evaluate = .error (.failed err) := by
  -- the error of a tree with given tokens is that of the operator where the machine stands still
  have hnode : ∀ tokens j ins, (e.withTokens tokens).code[j]? = some ins → ∀ err, ins.refusal? = some err →
      err.operator = tokens j := by
    intro tokens j ins hj err herr
    rw [code_withTokens, List.getElem?_mapIdx] at hj
    obtain ⟨ins', -, rfl⟩ := Option.map_eq_some_iff.1 hj
    exact Instr.operator_of_refusal? herr
  constructor
  · intro hstop tokens
    rcases (e.withTokens tokens).execute_code with ⟨v, -, hrun⟩ | ⟨j, ins, err, herr, hj, hkind, hrun⟩
    · rw [execute_code_withTokens, hstop] at hrun
      cases hrun
    · rw [execute_code_withTokens, hstop] at hrun
      cases hrun
      exact ⟨ins, err, hj, hkind, hnode tokens i ins hj err hkind, herr⟩
  · intro h
    -- tokens that differ from node to node tell which one it is
    obtain ⟨ins, err, -, -, hop, herr⟩ := h Token.eof
    rcases (e.withTokens Token.eof).execute_code with ⟨v, hv, -⟩ | ⟨j, ins', err', herr', hj, hkind, hrun⟩
    · rw [herr] at hv
      cases hv
    · rw [herr] at herr'
      cases herr'
      have hline := congrArg Token.line (hop.symm.trans (hnode Token.eof j ins' hj err hkind))
      obtain rfl : i = j := hline
      rwa [execute_code_withTokens] at hrun

/-- **Evaluation is the run of the postfix code.**  The machine ends with one value on its stack exactly if that is the value of
the tree, and it stands still at an operator exactly if the tree has the error of that operator, of its kind and with its
token; there is no other end.  The node is the right one even where others have the same token, since it is the same for all
tokens that the nodes could have.  Groups have no code, so they change nothing. -/
theorem Expr.evaluate_iff_execute (e : Expr) :
    (∀ v, execute 0 e.code [] = .ended [v] ↔ e.evaluate = .ok v) ∧
    (∀ err, (∃ i ins, execute 0 e.code [] = .stopped i .refused ∧ e.code[i]? = some ins ∧ ins.refusal? = some err) ↔
      e.evaluate = .error (.failed err)) ∧
    (∀ i, execute 0 e.code [] = .stopped i .refused ↔
      ∀ tokens, ∃ ins err, (e.withTokens tokens).code[i]? = some ins ∧ ins.refusal? = some err ∧ err.operator = tokens i ∧
        (e.withTokens tokens).evaluate = .error (.failed err)) ∧
    ((∃ v, execute 0 e.code [] = .ended [v]) ∨ ∃ i, execute 0 e.code [] = .stopped i .refused) ∧
    (∀ e' : Expr, e'.code = e.code → e'.evaluate = e.evaluate) := by
  refine ⟨e.execute_code_eq_ended_iff, e.exists_refused_iff, e.execute_code_eq_stopped_iff, ?_,
    fun e' => evaluate_eq_of_code_eq⟩
  rcases e.execute_code with ⟨v, -, hrun⟩ | ⟨i, -, -, -, -, -, hrun⟩
  · exact .inl ⟨v, hrun⟩
  · exact .inr ⟨i, hrun⟩

end LoxExpr
