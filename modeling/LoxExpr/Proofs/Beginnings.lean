import LoxExpr.Proofs.Grammar
/-!
# Beginnings: what goes on to an expression, and what it lacks

The tokens in front of a syntax error have begun an expression that they do not end.  `Unfinished` is the grammar with a hole
at its end: one case for each place where something may be lacking, and one for each rule that the hole may stand in.  What
is lacking is an operand or a closing parenthesis, and with any that is supplied a beginning goes on to an expression
(`Unfinished.goes_on`); so every beginning can be completed.

Which of the two it is can be read off the tokens without the grammar (`Unfinished.lacks`): an operand where the last token
is an operator or an opening parenthesis, or where there is none; otherwise a parenthesis, since one is open then.
-/
namespace LoxExpr
namespace Grammar

open Parsing (Rule)

/-- **The tokens `p` begin an expression by a rule and lack something**: an operand, or a closing parenthesis. -/
inductive Unfinished : Rule → List Token → ParseError.Cause → Prop
  | operand {l p c} : Unfinished (operandRule l) p c → Unfinished (.layer l) p c
  | link {l u left y op t p c} : Derives (.layer l) u left → (y, op) ∈ operators l → t.kind = .symbol y →
      Unfinished (operandRule l) p c → Unfinished (.layer l) (u ++ t :: p) c
  | primary {p c} : Unfinished .primary p c → Unfinished .unary p c
  | withPrefix {y op t p c} : (y, op) ∈ prefixes → t.kind = .symbol y → Unfinished .unary p c →
      Unfinished .unary (t :: p) c
  | empty : Unfinished .primary [] .expectedExpression
  | inGroup {t p c} : t.kind = .symbol .leftParen → Unfinished (.layer .equality) p c → Unfinished .primary (t :: p) c
  | unclosed {t u e} : t.kind = .symbol .leftParen → Derives (.layer .equality) u e →
      Unfinished .primary (t :: u) .expectedClosingParen

/-- What is lacking: an operand, or a closing parenthesis. -/
def Supplies : ParseError.Cause → List Token → Prop
  | .expectedExpression, u => ∃ e, Derives .primary u e
  | .expectedClosingParen, u => ∃ t : Token, u = [t] ∧ t.kind = .symbol .rightParen
  | _, _ => False

/-- **Whatever supplies what a beginning lacks, it goes on with that to an expression.** -/
theorem Unfinished.goes_on {r : Rule} {p u : List Token} {c : ParseError.Cause} (h : Unfinished r p c)
    (hu : Supplies c u) : ∃ v e, Derives r (p ++ u ++ v) e := by
  induction h with
  | operand _ ih =>
    obtain ⟨v, e, hd⟩ := ih hu
    exact ⟨v, e, .operand hd⟩
  | @link _ _ left _ op t _ _ hl ho hk _ ih =>
    obtain ⟨v, e, hd⟩ := ih hu
    refine ⟨v, .binary left op t e, ?_⟩
    rw [List.append_assoc, List.append_assoc, List.cons_append, ← List.append_assoc]
    exact .link hl ho hk hd
  | primary _ ih =>
    obtain ⟨v, e, hd⟩ := ih hu
    exact ⟨v, e, .primary hd⟩
  | withPrefix hy hk _ ih =>
    obtain ⟨v, e, hd⟩ := ih hu
    exact ⟨v, _, .withPrefix hy hk hd⟩
  | empty =>
    obtain ⟨e, hd⟩ := hu
    exact ⟨[], e, by rw [List.nil_append, List.append_nil]; exact hd⟩
  | inGroup hk _ ih =>
    obtain ⟨v, e, hd⟩ := ih hu
    refine ⟨v ++ [Symbol.token .rightParen 1], .group e, ?_⟩
    rw [List.cons_append, List.cons_append, ← List.append_assoc]
    exact .group hk hd rfl
  | unclosed hk hd =>
    obtain ⟨t, rfl, hk'⟩ := hu
    exact ⟨[], _, by rw [List.append_nil]; exact .group hk hd hk'⟩

/-! ### What is lacking -/

def WantsOperand (t : Token) : Prop :=
  t.kind = .symbol .leftParen ∨ (∃ op : UnaryOp, t.kind = .symbol op.symbol) ∨ ∃ op : BinaryOp, t.kind = .symbol op.symbol

/-- An operand has to come next: there is no token yet, or the last one is an operator or an opening parenthesis. -/
def AwaitsOperand (p : List Token) : Prop := ∀ t ∈ p.getLast?, WantsOperand t

/-- How many parentheses are open behind the tokens, when `n` are open in front of them. -/
def openBehind (n : Nat) (p : List Token) : Nat :=
  p.foldl (fun n t => if t.kind = .symbol .leftParen then n + 1 else if t.kind = .symbol .rightParen then n - 1 else n) n

theorem openBehind_append (n : Nat) (p q : List Token) : openBehind n (p ++ q) = openBehind (openBehind n p) q :=
  List.foldl_append

theorem openBehind_cons_opening {t : Token} (h : t.kind = .symbol .leftParen) (n : Nat) (p : List Token) :
    openBehind n (t :: p) = openBehind (n + 1) p := by
  simp [openBehind, h]

theorem openBehind_cons_closing {t : Token} (h : t.kind = .symbol .rightParen) (n : Nat) (p : List Token) :
    openBehind n (t :: p) = openBehind (n - 1) p := by
  simp [openBehind, h]

theorem openBehind_cons {t : Token} (h : t.kind ≠ .symbol .leftParen) (h' : t.kind ≠ .symbol .rightParen) (n : Nat)
    (p : List Token) : openBehind n (t :: p) = openBehind n p := by
  simp [openBehind, h, h']

theorem openBehind_cons_binary {l : Layer} {y : Symbol} {op : BinaryOp} {t : Token} (ho : (y, op) ∈ operators l)
    (hk : t.kind = .symbol y) (n : Nat) (p : List Token) : openBehind n (t :: p) = openBehind n p := by
  obtain ⟨rfl, -⟩ := mem_operators_iff.1 ho
  exact openBehind_cons (by rw [hk]; cases op <;> decide) (by rw [hk]; cases op <;> decide) n p

theorem openBehind_cons_unary {y : Symbol} {op : UnaryOp} {t : Token} (hy : (y, op) ∈ prefixes)
    (hk : t.kind = .symbol y) (n : Nat) (p : List Token) : openBehind n (t :: p) = openBehind n p := by
  obtain rfl := mem_prefixes_iff.1 hy
  exact openBehind_cons (by rw [hk]; cases op <;> decide) (by rw [hk]; cases op <;> decide) n p

theorem Derives.openBehind_eq {r : Rule} {u : List Token} {e : Expr} (h : Derives r u e) (n : Nat) : openBehind n u = n := by
  induction h generalizing n with
  | operand _ ih => exact ih n
  | link _ ho hk _ ihl ihr => rw [openBehind_append, openBehind_cons_binary ho hk, ihl, ihr]
  | primary _ ih => exact ih n
  | withPrefix hy hk _ ih => rw [openBehind_cons_unary hy hk, ih]
  | literal hd => rcases hd with ⟨hk, -⟩ | ⟨hk, -⟩ | hk | hk | hk <;> exact openBehind_cons (by simp [hk]) (by simp [hk]) n []
  | group hk _ hk' ih =>
    rw [openBehind_cons_opening hk, openBehind_append, ih, openBehind_cons_closing hk']
    rfl

theorem not_awaitsOperand_append {p q : List Token} (h : ¬ AwaitsOperand q) : ¬ AwaitsOperand (p ++ q) := by
  intro hp
  apply h
  intro t ht
  apply hp
  rw [List.getLast?_append, Option.mem_def.1 ht]
  rfl

theorem awaitsOperand_append {p q : List Token} {t : Token} (ht : WantsOperand t) (h : AwaitsOperand q) :
    AwaitsOperand (p ++ t :: q) := by
  intro t' ht'
  rw [List.getLast?_append, List.getLast?_cons, Option.some_or] at ht'
  cases hq : q.getLast? with
  | none => rw [hq] at ht'; cases ht'; exact ht
  | some t'' => rw [hq] at ht'; cases ht'; exact h _ hq

/-- An expression ends with a literal or a closing parenthesis. -/
theorem Derives.not_awaitsOperand {r : Rule} {u : List Token} {e : Expr} (h : Derives r u e) : ¬ AwaitsOperand u := by
  have hlast : ∀ {t : Token} {k : TokenKind}, t.kind = k → (∀ y, k = .symbol y → y = .rightParen) → ¬ AwaitsOperand [t] := by
    intro t k hk hy hw
    rcases hw t rfl with h | ⟨op, h⟩ | ⟨op, h⟩
    · cases hy _ (hk.symm.trans h)
    · have := hy _ (hk.symm.trans h); cases op <;> cases this
    · have := hy _ (hk.symm.trans h); cases op <;> cases this
  induction h with
  | operand _ ih => exact ih
  | @link _ _ _ _ _ t v _ _ _ _ _ _ ih =>
    rw [← List.singleton_append, ← List.append_assoc]
    exact not_awaitsOperand_append ih
  | primary _ ih => exact ih
  | @withPrefix _ _ t u _ _ _ _ ih => exact not_awaitsOperand_append (p := [t]) ih
  | literal hd => rcases hd with ⟨hk, -⟩ | ⟨hk, -⟩ | hk | hk | hk <;> exact hlast hk (by intro y hy; cases hy)
  | @group t u t' _ _ _ hk' _ =>
    exact not_awaitsOperand_append (p := t :: u) (hlast hk' (by intro y hy; cases hy; rfl))

theorem wantsOperand_binary {l : Layer} {y : Symbol} {op : BinaryOp} {t : Token} (ho : (y, op) ∈ operators l)
    (hk : t.kind = .symbol y) : WantsOperand t := by
  obtain ⟨rfl, -⟩ := mem_operators_iff.1 ho
  exact .inr (.inr ⟨op, hk⟩)

theorem wantsOperand_unary {y : Symbol} {op : UnaryOp} {t : Token} (hy : (y, op) ∈ prefixes) (hk : t.kind = .symbol y) :
    WantsOperand t := by
  obtain rfl := mem_prefixes_iff.1 hy
  exact .inr (.inl ⟨op, hk⟩)

/-- What a beginning lacks, when `n` parentheses are open in front of it. -/
def Lacks (n : Nat) (p : List Token) (c : ParseError.Cause) : Prop :=
  (c = .expectedExpression ∧ AwaitsOperand p) ∨ (c = .expectedClosingParen ∧ ¬ AwaitsOperand p ∧ n < openBehind n p)

theorem Lacks.behind {m n : Nat} {p q : List Token} {t : Token} {c : ParseError.Cause} (h : Lacks m p c)
    (ht : WantsOperand t) (hopen : m < openBehind m p → n < openBehind n (q ++ t :: p)) : Lacks n (q ++ t :: p) c := by
  rcases h with ⟨hc, ha⟩ | ⟨hc, ha, ho⟩
  · exact .inl ⟨hc, awaitsOperand_append ht ha⟩
  · refine .inr ⟨hc, ?_, hopen ho⟩
    rw [← List.singleton_append, ← List.append_assoc]
    exact not_awaitsOperand_append ha

/-- **An operand is lacking exactly where one is awaited, and otherwise a parenthesis is open.** -/
theorem Unfinished.lacks {r : Rule} {p : List Token} {c : ParseError.Cause} (h : Unfinished r p c) (n : Nat) :
    Lacks n p c := by
  induction h generalizing n with
  | operand _ ih => exact ih n
  | link hl ho hk _ ih =>
    refine (ih n).behind (wantsOperand_binary ho hk) fun hopen => ?_
    rwa [openBehind_append, hl.openBehind_eq, openBehind_cons_binary ho hk]
  | primary _ ih => exact ih n
  | withPrefix hy hk _ ih =>
    refine (ih n).behind (q := []) (wantsOperand_unary hy hk) fun hopen => ?_
    rwa [List.nil_append, openBehind_cons_unary hy hk]
  | empty => exact .inl ⟨rfl, fun _ h => nomatch h⟩
  | inGroup hk _ ih =>
    refine (ih (n + 1)).behind (q := []) (.inl hk) fun hopen => ?_
    rw [List.nil_append, openBehind_cons_opening hk]
    exact Nat.lt_of_succ_lt hopen
  | @unclosed t u _ hk hd =>
    refine .inr ⟨rfl, not_awaitsOperand_append (p := [t]) hd.not_awaitsOperand, ?_⟩
    rw [openBehind_cons_opening hk, hd.openBehind_eq]
    exact Nat.lt_succ_self n

theorem Unfinished.completes {r : Rule} {p : List Token} {c : ParseError.Cause} (h : Unfinished r p c) :
    ∃ v e, Derives r (p ++ v) e := by
  have hsupplied : ∃ u, Supplies c u := by
    rcases h.lacks 0 with ⟨rfl, -⟩ | ⟨rfl, -⟩
    · exact ⟨[⟨.keyword .nilWord, "nil", none, 1⟩], _, .literal (.nilWord rfl)⟩
    · exact ⟨[Symbol.token .rightParen 1], _, rfl, rfl⟩
  obtain ⟨u, hu⟩ := hsupplied
  obtain ⟨v, e, hd⟩ := h.goes_on hu
  exact ⟨u ++ v, e, by rw [← List.append_assoc]; exact hd⟩

end Grammar
end LoxExpr
