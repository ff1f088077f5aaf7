import LoxExpr.Diagnostic
import LoxExpr.Expr
/-!
# Parsing: from tokens to one expression

The grammar has a rule for each layer of left-associative operators, one for the prefix operators and one for the tightest
expressions:

    layer    :=  operand (operator operand)*        equality, comparison, term, factor, each the operand of the one before
    unary    :=  ("!" | "-") unary | primary
    primary  :=  NUMBER | STRING | "true" | "false" | "nil" | "(" equality ")"

A rule reads a state, the tokens that are left with a *depth* of nesting, and leaves fewer tokens in it; its result carries
that (`Reading`), and it is why parsing ends.  Parsing stops at the first error.

A tree may not become deeper than a *budget* allows.  Every prefix operator and every link of a chain of operators costs
one unit and every group four; a charge that would pass the budget is refused at the token that asks for it.  Each rule
gives back what it was charged when it is done, so the links of one chain add up while those of an operand do not.  `peak`
and `asked` keep account of the charges; no rule looks at them.

The depth is a machine word, and the check takes a sum that is none for the greatest word.  So under the greatest budget
nothing is refused, and a sum may then be no word; what becomes of it depends on how the program is built (`Overflow`).
-/
namespace LoxExpr
namespace Parsing

/-! ## States -/

/-- What a prefix operator or one link of a chain costs. -/
def operatorCost : Nat := 1

/-- What a group costs. -/
def groupCost : Nat := 4

/-- The budget when none is given. -/
def defaultBudget : Nat := 256

/-- The greatest machine word, which is the greatest budget. -/
def greatestWord : Nat := 0xffffffffffffffff

/-- **What becomes of a sum that is no word**: parsing stops there, or goes on with what is left of the sum behind the words. -/
inductive Overflow where
  | stops
  | wraps
deriving DecidableEq

/-- The greatest depth there is.  Budgets are words; for one that is not, the words are taken to be as long as it needs. -/
def greatestDepth (budget : Nat) : Nat := max budget greatestWord

/-- **The state between two steps**: the tokens left, the line of the last one read, the depth charged at the moment, the
greatest depth so far (`peak`), and the greatest depth that a charge came to, granted or not (`asked`). -/
structure State where
  rest : List Token
  lastLine : Nat
  depth : Nat
  peak : Nat
  asked : Nat

/-- **Where parsing stopped and why**: at an error, or at a token that was charged beyond the greatest depth. -/
inductive Failure where
  | failed (error : ParseError) (state : State)
  | overflowed (token : Token) (state : State)

namespace Failure

/-- The state in which parsing stopped. -/
def state : Failure → State
  | failed _ s => s
  | overflowed _ s => s

/-- What is reported.  A parse from depth zero overflows on no list with fewer tokens than a quarter of all words, so nothing
is reported of an overflow; what stands for it here is the error of a refused charge. -/
def error : Failure → ParseError
  | failed err _ => err
  | overflowed t _ => ParseError.atToken .nestingTooDeep t

end Failure

namespace State

/-- Nothing read and nothing charged; with no token at all, errors are on the first line. -/
def start (tokens : List Token) : State := ⟨tokens, 1, 0, 0, 0⟩

/-- The state after the token `t` is read and `ts` are left. -/
def advance (s : State) (t : Token) (ts : List Token) : State := { s with rest := ts, lastLine := t.line }

/-- The next token with the state after it. -/
def next? (s : State) : Option (Token × State) :=
  match s.rest with
  | [] => none
  | t :: ts => some (t, s.advance t ts)

/-- A prefix operator, if the next token is one. -/
def prefixOp? (s : State) : Option (UnaryOp × Token × State) :=
  s.next?.bind fun (t, s₁) => (UnaryOp.ofKind? t.kind).map fun op => (op, t, s₁)

/-- An operator of the layer `l`, if the next token is one. -/
def linkOp? (l : Layer) (s : State) : Option (BinaryOp × Token × State) :=
  s.next?.bind fun (t, s₁) => ((BinaryOp.ofKind? t.kind).filter (fun op => op.layer = l)).map fun op => (op, t, s₁)

/-- A closing parenthesis, if the next token is one. -/
def closingParen? (s : State) : Option State :=
  s.next?.bind fun (t, s₁) => if t.kind = .symbol .rightParen then some s₁ else none

/-- The failure at the next token, or at the end when none is left. -/
def failHere (s : State) (cause : ParseError.Cause) : Failure :=
  match s.rest with
  | t :: _ => .failed (ParseError.atToken cause t) s
  | [] => .failed ⟨cause, .atEnd, s.lastLine⟩ s

/-- The state after `cost` units are charged. -/
def charged (cost : Nat) (s : State) : State :=
  { s with depth := s.depth + cost, peak := max s.peak (s.depth + cost), asked := max s.asked (s.depth + cost) }

/-- The state after `cost` units are asked for and not charged. -/
def notCharged (cost : Nat) (s : State) : State := { s with asked := max s.asked (s.depth + cost) }

/-- The state after a charge of `cost` units that is counted from zero again behind the greatest depth. -/
def wrapped (budget cost : Nat) (s : State) : State :=
  let depth := (s.depth + cost) % (greatestDepth budget + 1)
  { s with depth := depth, peak := max s.peak depth, asked := max s.asked (s.depth + cost) }

/-- **Charges `cost` units at the token `t`.**  A sum beyond the greatest depth is checked as the greatest depth; if that is
within the budget, the sum itself overflows. -/
def descend (o : Overflow) (budget cost : Nat) (t : Token) (s : State) : Except Failure { s' : State // s'.rest = s.rest } :=
  if budget < min (s.depth + cost) (greatestDepth budget) then
    .error (.failed (ParseError.atToken .nestingTooDeep t) (s.notCharged cost))
  else if s.depth + cost ≤ greatestDepth budget then .ok ⟨s.charged cost, rfl⟩
  else
    match o with
    | .stops => .error (.overflowed t (s.notCharged cost))
    | .wraps => .ok ⟨s.wrapped budget cost, rfl⟩

/-- Gives back all charges since the depth was `depth`. -/
def restore (depth : Nat) (s : State) : State := { s with depth := depth }

theorem next?_eq_some_iff {s s₁ : State} {t : Token} :
    s.next? = some (t, s₁) ↔ ∃ ts, s.rest = t :: ts ∧ s₁ = s.advance t ts := by
  unfold next?
  cases s.rest with
  | nil => simp
  | cons u us =>
    constructor
    · intro h; cases h; exact ⟨us, rfl, rfl⟩
    · rintro ⟨ts, h, rfl⟩; cases h; rfl

theorem prefixOp?_eq_some_iff {s s₁ : State} {op : UnaryOp} {t : Token} :
    s.prefixOp? = some (op, t, s₁) ↔ s.next? = some (t, s₁) ∧ t.kind = .symbol op.symbol := by
  rw [← UnaryOp.ofKind?_eq_some_iff]
  simp only [prefixOp?, Option.bind_eq_some_iff, Option.map_eq_some_iff, Prod.exists, Prod.mk.injEq]
  constructor
  · rintro ⟨t, s₁, h, op, hop, rfl, rfl, rfl⟩; exact ⟨h, hop⟩
  · rintro ⟨h, hop⟩; exact ⟨t, s₁, h, op, hop, rfl, rfl, rfl⟩

theorem linkOp?_eq_some_iff {l : Layer} {s s₁ : State} {op : BinaryOp} {t : Token} :
    s.linkOp? l = some (op, t, s₁) ↔ s.next? = some (t, s₁) ∧ t.kind = .symbol op.symbol ∧ op.layer = l := by
  rw [← BinaryOp.ofKind?_eq_some_iff]
  simp only [linkOp?, Option.bind_eq_some_iff, Option.map_eq_some_iff, Option.filter_eq_some_iff, Prod.exists,
    Prod.mk.injEq, decide_eq_true_eq]
  constructor
  · rintro ⟨t, s₁, h, op, ⟨hop, hl⟩, rfl, rfl, rfl⟩; exact ⟨h, hop, hl⟩
  · rintro ⟨h, hop, hl⟩; exact ⟨t, s₁, h, op, ⟨hop, hl⟩, rfl, rfl, rfl⟩

theorem closingParen?_eq_some_iff {s s₁ : State} :
    s.closingParen? = some s₁ ↔ ∃ t, s.next? = some (t, s₁) ∧ t.kind = .symbol .rightParen := by
  simp only [closingParen?, Option.bind_eq_some_iff, Prod.exists]
  constructor
  · rintro ⟨t, s', h, hk⟩
    split at hk <;> cases hk
    exact ⟨t, h, by assumption⟩
  · rintro ⟨t, h, hk⟩; exact ⟨t, s₁, h, by simp [hk]⟩

/-! ### Reading shortens -/

theorem lt_of_next? {s s₁ : State} {t : Token} (h : s.next? = some (t, s₁)) : s₁.rest.length < s.rest.length := by
  obtain ⟨ts, hs, rfl⟩ := next?_eq_some_iff.1 h
  simp [hs, advance]

theorem lt_of_prefixOp? {s s₁ : State} {op : UnaryOp} {t : Token} (h : s.prefixOp? = some (op, t, s₁)) :
    s₁.rest.length < s.rest.length := lt_of_next? (prefixOp?_eq_some_iff.1 h).1

theorem lt_of_linkOp? {l : Layer} {s s₁ : State} {op : BinaryOp} {t : Token} (h : s.linkOp? l = some (op, t, s₁)) :
    s₁.rest.length < s.rest.length := lt_of_next? (linkOp?_eq_some_iff.1 h).1

theorem lt_of_closingParen? {s s₁ : State} (h : s.closingParen? = some s₁) : s₁.rest.length < s.rest.length :=
  let ⟨_, h, _⟩ := closingParen?_eq_some_iff.1 h
  lt_of_next? h

end State

/-! ## Rules -/

/-- The rules of the grammar. -/
inductive Rule where
  | layer (l : Layer)
  | unary
  | primary
deriving DecidableEq

namespace Rule

/-- How many rules are tighter. -/
def rank : Rule → Nat
  | layer l => l.rank + 2
  | unary => 1
  | primary => 0

/-- The rule for the operands of a layer. -/
def operandOf (l : Layer) : Rule :=
  match l.tighter? with
  | some l' => layer l'
  | none => unary

theorem rank_operandOf (l : Layer) : (operandOf l).rank < (layer l).rank := by
  cases l <;> decide

/-- The rule of a whole expression. -/
def expression : Rule := layer .equality

end Rule

/-- What a rule yields in `s`: a tree, and a state in which fewer tokens are left. -/
abbrev Reading (s : State) := { r : Expr × State // r.2.rest.length < s.rest.length }

/-- What the rest of a chain yields. -/
abbrev ChainReading (s : State) := { r : Expr × State // r.2.rest.length ≤ s.rest.length }

/-- The literal that a token is by itself. -/
def literalOf? (t : Token) : Option Value :=
  match t.kind with
  | .number | .string => t.literal
  | .keyword .trueWord => some (.bool true)
  | .keyword .falseWord => some (.bool false)
  | .keyword .nilWord => some .nil
  | _ => none

mutual

/-- **Reads an expression by a rule.** -/
def readWith (o : Overflow) (budget : Nat) (rule : Rule) (s : State) : Except Failure (Reading s) :=
  match rule with
  | .layer l => do
    let ⟨(left, s₁), h₁⟩ ← readWith o budget (Rule.operandOf l) s
    let ⟨(e, s₂), h₂⟩ ← chainWith o budget l left s₁
    return ⟨(e, s₂.restore s.depth), Nat.lt_of_le_of_lt h₂ h₁⟩
  | .unary =>
    match h : s.prefixOp? with
    | none => readWith o budget .primary s
    | some (op, t, s₁) => do
      let ⟨s₂, h₂⟩ ← s₁.descend o budget operatorCost t
      let ⟨(e, s₃), h₃⟩ ← readWith o budget .unary s₂
      return ⟨(.unary op t e, s₃.restore s.depth), Nat.lt_trans (h₂ ▸ h₃) (State.lt_of_prefixOp? h)⟩
  | .primary =>
    match h : s.next? with
    | none => .error (s.failHere .expectedExpression)
    | some (t, s₁) =>
      match literalOf? t with
      | some v => .ok ⟨(.literal v, s₁), State.lt_of_next? h⟩
      | none =>
        if t.kind = .symbol .leftParen then do
          let ⟨s₂, h₂⟩ ← s₁.descend o budget groupCost t
          let ⟨(e, s₃), h₃⟩ ← readWith o budget .expression s₂
          have h₃ := Nat.lt_trans (h₂ ▸ h₃) (State.lt_of_next? h)
          match h₄ : (s₃.restore s.depth).closingParen? with
          | some s₄ => .ok ⟨(.group e, s₄), Nat.lt_trans (State.lt_of_closingParen? h₄) h₃⟩
          | none => .error ((s₃.restore s.depth).failHere .expectedClosingParen)
        else .error (.failed (ParseError.atToken .expectedExpression t) s₁)
termination_by (s.rest.length, rule.rank)
decreasing_by
  · exact .right _ (Rule.rank_operandOf l)
  · exact .left _ _ h₁
  · exact .right _ (by decide)
  · exact .left _ _ (h₂ ▸ State.lt_of_prefixOp? h)
  · exact .left _ _ (h₂ ▸ State.lt_of_next? h)

/-- **Reads on** as long as operators of the layer `l` follow; what has been read is the left operand of the next. -/
def chainWith (o : Overflow) (budget : Nat) (l : Layer) (left : Expr) (s : State) : Except Failure (ChainReading s) :=
  match h : s.linkOp? l with
  | none => .ok ⟨(left, s), Nat.le_refl _⟩
  | some (op, t, s₁) => do
    let ⟨s₂, h₂⟩ ← s₁.descend o budget operatorCost t
    let ⟨(right, s₃), h₃⟩ ← readWith o budget (Rule.operandOf l) s₂
    have h₃ := Nat.lt_trans (h₂ ▸ h₃) (State.lt_of_linkOp? h)
    let ⟨(e, s₄), h₄⟩ ← chainWith o budget l (.binary left op t right) s₃
    return ⟨(e, s₄), Nat.le_trans h₄ (Nat.le_of_lt h₃)⟩
termination_by (s.rest.length, 0)
decreasing_by
  · exact .left _ _ (h₂ ▸ State.lt_of_linkOp? h)
  · exact .left _ _ h₃

end

/-- Reads by a rule, and stops where a sum is no word. -/
def read (budget : Nat) (rule : Rule) (s : State) : Except Failure (Reading s) := readWith .stops budget rule s

/-! ## Whole expressions -/

/-- Reads one expression, which the closing token or the end must follow. -/
def whole (budget : Nat) (tokens : List Token) : Except Failure (Expr × State) := do
  let ⟨(e, s), _⟩ ← read budget .expression (State.start tokens)
  match s.next? with
  | none => return (e, s)
  | some (t, _) => if t.kind = .eof then return (e, s) else .error (s.failHere .unexpectedTrailingTokens)

end Parsing

/-- **The expression that a list of tokens is**, within a budget.  What follows a closing token is not looked at. -/
def Expr.ofTokens (budget : Nat) (tokens : List Token) : Except ParseError Expr :=
  match Parsing.whole budget tokens with
  | .ok (e, _) => .ok e
  | .error f => .error f.error

end LoxExpr
