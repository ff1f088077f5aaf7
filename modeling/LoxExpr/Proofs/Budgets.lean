import LoxExpr.Proofs.Stages
import LoxExpr.Proofs.SyntaxErrors
/-!
# Budgets: what a greater one changes

Nothing but the charges looks at the budget.  So two parses of a list under two budgets go through the same states up to the
first charge that the smaller one refuses: without such a charge they end alike, and with one the parse under the greater
budget ends there or goes on (`run_eq_or_refused`).  How far a parse has come is measured by the tokens that it leaves
(`tokensLeft`), which only get fewer.

A refused charge is at the token it was asked for (`Fails.refused_at`), and that is one behind which an operand is wanted: a
prefix operator, a binary one or an opening parenthesis, and never the end.  The greatest word refuses none; there the sum
itself is beyond the words (`Fails.overflowed`), which takes more tokens than a list has (`not_fails_overflowed`), so that what
becomes of an overflow does not matter (`run_start_eq`).
-/
namespace LoxExpr

/-- A run with a value is the same run under every greater budget. -/
theorem Run.ofText_mono {budget budget' : Nat} {source : String} {sink : Diagnostics} {v : Value} (hb : budget ≤ budget')
    (h : (ofText budget source sink).outcome = .value v) : ofText budget' source sink = ofText budget source sink := by
  obtain ⟨outcome, events, new, hgoes⟩ := exists_goes budget source sink
  rw [hgoes.ofText_eq] at h ⊢
  cases hgoes with
  | yields hparse hsink herrors heval =>
    have hgoes' : Goes budget' source sink _ _ _ := .yields (Parsing.ofTokens_mono hparse hb) hsink herrors heval
    rw [hgoes'.ofText_eq]
  | unparsed => cases h
  | withheld => cases h
  | fails => cases h

namespace Parsing

open Grammar

section
variable {budget budget' : Nat} {task : Task} {s s' : State} {e : Expr} {f : Failure}

/-! ## Tokens left -/

/-- What is left where a task ends, with a tree or with a failure. -/
def tokensLeft : Except Failure (Expr × State) → List Token
  | .ok r => r.2.rest
  | .error f => f.state.rest

theorem length_tokensLeft_map_le {n : Nat} {x : Except Failure (Expr × State)} {g : Expr × State → Expr × State}
    (hg : ∀ r, (g r).2.rest = r.2.rest) (h : (tokensLeft x).length ≤ n) : (tokensLeft (x.map g)).length ≤ n := by
  cases x with
  | error f => exact h
  | ok r => exact Nat.le_trans (Nat.le_of_eq (congrArg List.length (hg r))) h

theorem length_tokensLeft_bind_le {x : Except Failure (Expr × State)} {k : Expr × State → Except Failure (Expr × State)}
    (hk : ∀ r, (tokensLeft (k r)).length ≤ r.2.rest.length) : (tokensLeft (x.bind k)).length ≤ (tokensLeft x).length := by
  cases x with
  | error f => exact Nat.le_refl _
  | ok r => exact hk r

theorem length_tokensLeft_run_le (budget : Nat) (task : Task) (s : State) :
    (tokensLeft (run .stops budget task s)).length ≤ s.rest.length := by
  rcases reads_or_fails budget task s with ⟨e, s', hr⟩ | ⟨f, hf⟩
  · rw [hr.run]; exact hr.length_le
  · rw [hf.run]; exact hf.length_le

theorem length_tokensLeft_closeGroup_le (s : State) (r : Expr × State) :
    (tokensLeft (closeGroup s r)).length ≤ r.2.rest.length := by
  unfold closeGroup
  split
  · next s₃ hc =>
    have hlt : s₃.rest.length < (r.2.restore s.depth).rest.length := State.lt_of_closingParen? hc
    exact Nat.le_of_lt hlt
  · rw [tokensLeft, State.state_failHere]
    exact Nat.le_refl _

/-! ## Under a greater budget -/

theorem Reads.mono (h : Reads budget task s e s') (hb : budget ≤ budget') : Reads budget' task s e s' := by
  induction h with
  | layer _ _ ih₁ ih₂ => exact .layer ih₁ ih₂
  | noPrefix hp _ ih => exact .noPrefix hp ih
  | withPrefix hp hcost _ ih => exact .withPrefix hp (Nat.le_trans hcost hb) ih
  | literal hn hv => exact .literal hn hv
  | group hn hv hk hcost _ hc ih => exact .group hn hv hk (Nat.le_trans hcost hb) ih hc
  | noLink hl => exact .noLink hl
  | link hl hcost _ _ ih₁ ih₂ => exact .link hl (Nat.le_trans hcost hb) ih₁ ih₂

/-- A failure under a budget that is none, or none so early, under another one: a charge was refused, and the task leaves no
more tokens under the other budget. -/
def Overruled (budget' : Nat) (task : Task) (s : State) (f : Failure) : Prop :=
  f.error.cause = .nestingTooDeep ∧ (tokensLeft (run .stops budget' task s)).length ≤ f.state.rest.length

/-- Behind a charge that was refused, a task leaves no more tokens. -/
theorem overruled_of_rest {cost : Nat} {t : Token} (h : (tokensLeft (run .stops budget' task s)).length ≤ s'.rest.length) :
    Overruled budget' task s (s'.refused budget cost t) := ⟨State.cause_refused, by rw [State.rest_refused]; exact h⟩

/-- Whether a charge is made or not, no more tokens are left behind it. -/
theorem length_tokensLeft_descend_le {cost : Nat} {t : Token}
    {k : { s' : State // s'.rest = s.rest } → Except Failure (Expr × State)}
    (hk : ∀ s₁, (tokensLeft (k s₁)).length ≤ s₁.1.rest.length) :
    (tokensLeft ((s.descend .stops budget cost t).bind k)).length ≤ s.rest.length := by
  by_cases hcost : s.depth + cost ≤ budget
  · rw [State.descend_of_le hcost]
    exact hk _
  · rw [State.descend_of_not_le hcost (.inl rfl), Except.bind, tokensLeft, State.rest_refused]

/-- **A failure stays the same under a greater budget, or it was a refused charge** and the task comes at least as far. -/
theorem Fails.under (h : Fails budget task s f) (hb : budget ≤ budget') :
    Fails budget' task s f ∨ Overruled budget' task s f := by
  induction h with
  | @operand l s f _ ih =>
    rcases ih with hf | ⟨hc, hle⟩
    · exact .inl (.operand hf)
    · refine .inr ⟨hc, Nat.le_trans ?_ hle⟩
      rw [run_layer]
      refine length_tokensLeft_bind_le fun r => ?_
      exact length_tokensLeft_map_le (fun _ => rfl) (length_tokensLeft_run_le _ _ _)
  | @chain l s left s₁ f hr _ ih =>
    have hr := hr.mono hb
    rcases ih with hf | ⟨hc, hle⟩
    · exact .inl (.chain hr hf)
    · refine .inr ⟨hc, ?_⟩
      rw [run_layer, hr.run, Except.bind]
      exact length_tokensLeft_map_le (fun _ => rfl) hle
  | noPrefix hp _ ih =>
    rcases ih with hf | ⟨hc, hle⟩
    · exact .inl (.noPrefix hp hf)
    · exact .inr ⟨hc, by rw [run_unary_of_none hp]; exact hle⟩
  | @prefixRefused s op t s₁ hp _ =>
    refine .inr (overruled_of_rest ?_)
    rw [run_unary_of_some hp]
    exact length_tokensLeft_descend_le fun s₂ => length_tokensLeft_map_le (fun _ => rfl) (length_tokensLeft_run_le _ _ _)
  | @withPrefix s op t s₁ f hp hcost _ ih =>
    have hcost := Nat.le_trans hcost hb
    rcases ih with hf | ⟨hc, hle⟩
    · exact .inl (.withPrefix hp hcost hf)
    · refine .inr ⟨hc, ?_⟩
      rw [run_unary_of_some hp, State.descend_of_le hcost]
      exact length_tokensLeft_map_le (fun _ => rfl) hle
  | noToken hn => exact .inl (.noToken hn)
  | noExpression hn hv hk => exact .inl (.noExpression hn hv hk)
  | @groupRefused s t s₁ hn hv hk _ =>
    refine .inr (overruled_of_rest ?_)
    rw [run_primary_of_some hn, hv]
    simp only [hk, if_true]
    refine length_tokensLeft_descend_le fun s₂ => ?_
    exact Nat.le_trans (length_tokensLeft_bind_le (length_tokensLeft_closeGroup_le s)) (length_tokensLeft_run_le _ _ _)
  | @inGroup s t s₁ f hn hv hk hcost _ ih =>
    have hcost := Nat.le_trans hcost hb
    rcases ih with hf | ⟨hc, hle⟩
    · exact .inl (.inGroup hn hv hk hcost hf)
    · refine .inr ⟨hc, Nat.le_trans ?_ hle⟩
      rw [run_primary_of_some hn, hv]
      simp only [hk, if_true, State.descend_of_le hcost]
      exact length_tokensLeft_bind_le (length_tokensLeft_closeGroup_le s)
  | unclosed hn hv hk hcost hr hclose => exact .inl (.unclosed hn hv hk (Nat.le_trans hcost hb) (hr.mono hb) hclose)
  | @linkRefused l left s op t s₁ hl _ =>
    refine .inr (overruled_of_rest ?_)
    rw [run_links_of_some hl]
    refine length_tokensLeft_descend_le fun s₂ => ?_
    exact Nat.le_trans (length_tokensLeft_bind_le fun r => length_tokensLeft_run_le _ _ _) (length_tokensLeft_run_le _ _ _)
  | @right l left s op t s₁ f hl hcost _ ih =>
    have hcost := Nat.le_trans hcost hb
    rcases ih with hf | ⟨hc, hle⟩
    · exact .inl (.right hl hcost hf)
    · refine .inr ⟨hc, Nat.le_trans ?_ hle⟩
      rw [run_links_of_some hl, State.descend_of_le hcost]
      exact length_tokensLeft_bind_le fun r => length_tokensLeft_run_le _ _ _
  | link hl hcost hr _ ih =>
    have hcost := Nat.le_trans hcost hb
    have hr := hr.mono hb
    rcases ih with hf | ⟨hc, hle⟩
    · exact .inl (.link hl hcost hr hf)
    · refine .inr ⟨hc, ?_⟩
      rw [run_links_of_some hl, State.descend_of_le hcost, Except.bind, hr.run]
      exact hle

theorem run_eq_or_refused (hb : budget ≤ budget') (task : Task) (s : State) :
    run .stops budget task s = run .stops budget' task s ∨ ∃ f, run .stops budget task s = .error f ∧ Overruled budget' task s f := by
  rcases reads_or_fails budget task s with ⟨e, s', hr⟩ | ⟨f, hf⟩
  · exact .inl (hr.run.trans (hr.mono hb).run.symm)
  · rcases hf.under hb with hf' | ho
    · exact .inl (hf.run.trans hf'.run.symm)
    · exact .inr ⟨f, hf.run, ho⟩

/-! ## Where a charge is refused -/

theorem State.cause_failHere (s : State) (c : ParseError.Cause) : (s.failHere c).error.cause = c := by
  rw [State.error_failHere, cause_errorAt]

/-- **A refused charge is for the last token taken**, an operator or an opening parenthesis, and the budget does not cover it. -/
theorem Fails.refused_at (h : Fails budget task s f) (hc : f.error.cause = .nestingTooDeep) :
    ∃ (x : State) (cost : Nat) (p : List Token) (t : Token), f = x.refused budget cost t ∧ s.rest = p ++ t :: x.rest ∧
      WantsOperand t ∧ cost ≤ groupCost ∧ ¬ x.depth + cost ≤ budget := by
  induction h with
  | operand _ ih => exact ih hc
  | chain hr _ ih =>
    obtain ⟨u, hu, -⟩ := hr.derives
    obtain ⟨x, cost, p, t, hf, hp, ht⟩ := ih hc
    exact ⟨x, cost, u ++ p, t, hf, by rw [hu, hp, List.append_assoc], ht⟩
  | noPrefix _ _ ih => exact ih hc
  | @prefixRefused s op t s₁ hp hb =>
    obtain ⟨hn, hk⟩ := State.prefixOp?_eq_some_iff.1 hp
    obtain ⟨ts, hs, rfl⟩ := State.next?_eq_some_iff.1 hn
    exact ⟨_, operatorCost, [], t, rfl, hs, .inr (.inl ⟨op, hk⟩), by decide, hb⟩
  | @withPrefix s op t s₁ f hp _ _ ih =>
    obtain ⟨ts, hs, rfl⟩ := State.next?_eq_some_iff.1 (State.prefixOp?_eq_some_iff.1 hp).1
    obtain ⟨x, cost, p, t', hf, hp', ht⟩ := ih hc
    exact ⟨x, cost, t :: p, t', hf, hs.trans (congrArg _ hp'), ht⟩
  | noToken _ => rw [State.cause_failHere] at hc; cases hc
  | noExpression => cases hc
  | @groupRefused s t s₁ hn _ hk hb =>
    obtain ⟨ts, hs, rfl⟩ := State.next?_eq_some_iff.1 hn
    exact ⟨_, groupCost, [], t, rfl, hs, .inl hk, Nat.le_refl _, hb⟩
  | @inGroup s t s₁ f hn _ _ _ _ ih =>
    obtain ⟨ts, hs, rfl⟩ := State.next?_eq_some_iff.1 hn
    obtain ⟨x, cost, p, t', hf, hp, ht⟩ := ih hc
    exact ⟨x, cost, t :: p, t', hf, hs.trans (congrArg _ hp), ht⟩
  | unclosed => rw [State.cause_failHere] at hc; cases hc
  | @linkRefused l left s op t s₁ hl hb =>
    obtain ⟨hn, hk, -⟩ := State.linkOp?_eq_some_iff.1 hl
    obtain ⟨ts, hs, rfl⟩ := State.next?_eq_some_iff.1 hn
    exact ⟨_, operatorCost, [], t, rfl, hs, .inr (.inr ⟨op, hk⟩), by decide, hb⟩
  | @right l left s op t s₁ f hl _ _ ih =>
    obtain ⟨ts, hs, rfl⟩ := State.next?_eq_some_iff.1 (State.linkOp?_eq_some_iff.1 hl).1
    obtain ⟨x, cost, p, t', hf, hp, ht⟩ := ih hc
    exact ⟨x, cost, t :: p, t', hf, hs.trans (congrArg _ hp), ht⟩
  | @link l left s op t s₁ right s₂ f hl _ hr _ ih =>
    obtain ⟨ts, hs, rfl⟩ := State.next?_eq_some_iff.1 (State.linkOp?_eq_some_iff.1 hl).1
    obtain ⟨u, hu, -⟩ := hr.derives
    obtain ⟨x, cost, p, t', hf, hp, ht⟩ := ih hc
    have hts : ts = u ++ (p ++ t' :: x.rest) := hu.trans (congrArg _ hp)
    exact ⟨x, cost, t :: (u ++ p), t', hf, by rw [hs, hts]; simp, ht⟩

/-- **An overflow needs the greatest word as budget**, and a depth from which the charge for the last token taken leads beyond
the greatest one there is. -/
theorem Fails.overflowed {t : Token} {x : State} (h : Fails budget task s (.overflowed t x)) : greatestWord ≤ budget ∧
    ∃ cost ≤ groupCost, greatestDepth budget < x.depth + cost ∧ x.depth + cost ≤ x.asked ∧
      ∃ p, s.rest = p ++ t :: x.rest ∧ WantsOperand t := by
  obtain ⟨y, cost, p, t', hf, hp, ht, hcost, hb⟩ := h.refused_at rfl
  unfold State.refused at hf
  split at hf
  · cases hf
  · next hword =>
    cases hf
    have hgreatest : greatestDepth budget = budget := Nat.max_eq_left (Nat.le_of_not_lt hword)
    exact ⟨Nat.le_of_not_lt hword, cost, hcost, by rw [hgreatest]; exact Nat.lt_of_not_le hb, Nat.le_max_right _ _, p, hp, ht⟩

end

/-! ## Whole lists -/

section
variable {budget budget' : Nat} {tokens : List Token}

theorem whole_eq_or_refused (hb : budget ≤ budget') (tokens : List Token) : whole budget tokens = whole budget' tokens ∨
    ∃ f, whole budget tokens = .error f ∧ f.error.cause = .nestingTooDeep ∧
      (tokensLeft (whole budget' tokens)).length ≤ f.state.rest.length := by
  rw [whole_eq, whole_eq]
  rcases run_eq_or_refused hb (.rule .expression) (State.start tokens) with heq | ⟨f, hf, hc, hle⟩
  · rw [heq]
    exact .inl rfl
  · refine .inr ⟨f, by rw [hf]; rfl, hc, Nat.le_trans (length_tokensLeft_bind_le fun r => ?_) hle⟩
    -- what is looked at behind the expression is not taken
    split
    · exact Nat.le_refl _
    · split
      · exact Nat.le_refl _
      · rw [tokensLeft, State.state_failHere]

/-- No charge is asked for behind an expression. -/
theorem fails_of_whole {f : Failure} (h : whole budget tokens = .error f) (hc : f.error.cause = .nestingTooDeep) :
    Fails budget (.rule .expression) (State.start tokens) f := by
  rw [whole_eq] at h
  rcases reads_or_fails budget (.rule .expression) (State.start tokens) with ⟨e, s, hr⟩ | ⟨f', hf⟩
  · rw [hr.run, Except.bind] at h
    split at h
    · cases h
    · split at h
      · cases h
      · cases h
        rw [State.cause_failHere] at hc
        cases hc
  · rw [hf.run] at h
    cases h
    exact hf

/-- **No list overflows** if it has fewer tokens than a quarter of all words, the closing ones set aside: each sum is paid for
by the tokens taken, under whatever budget. -/
theorem not_fails_overflowed (hn : State.chargeable tokens < 0x4000000000000000) (t : Token) (x : State) :
    ¬ Fails budget (.rule .expression) (State.start tokens) (.overflowed t x) := by
  intro hf
  obtain ⟨hword, cost, -, hdepth, hasked, -⟩ := hf.overflowed
  obtain ⟨-, hpaid⟩ := hf.path.pays (State.pays_start tokens)
  have hpaid : x.asked ≤ 4 * State.chargeable tokens := hpaid
  have hgreatest : budget ≤ greatestDepth budget := Nat.le_max_left _ _
  unfold greatestWord at hword
  omega

theorem whole_ne_overflowed (budget : Nat) (hn : State.chargeable tokens < 0x4000000000000000) (t : Token) (x : State) :
    whole budget tokens ≠ .error (.overflowed t x) :=
  fun h => not_fails_overflowed hn t x (fails_of_whole h rfl)

/-- **What becomes of an overflow does not matter** for a list of that length. -/
theorem run_start_eq (o : Overflow) (budget : Nat) (hn : State.chargeable tokens < 0x4000000000000000) :
    run o budget (.rule .expression) (State.start tokens) = run .stops budget (.rule .expression) (State.start tokens) :=
  run_eq_run_stops o fun t x h => not_fails_overflowed hn t x (run_eq_error_iff.1 h)

/-- **A parse ends with a charge that is refused to the token `t` at the index `i`**, the last token that is taken. -/
def RefusedAt (budget : Nat) (tokens : List Token) (i : Nat) (t : Token) : Prop :=
  ∃ f, whole budget tokens = .error f ∧ f.error = ParseError.atToken .nestingTooDeep t ∧
    tokens = tokens.take i ++ t :: f.state.rest

theorem length_eq_of_take {i : Nat} {t : Token} {rest : List Token} (h : tokens = tokens.take i ++ t :: rest) :
    tokens.length = i + 1 + rest.length := by
  have hlen := congrArg List.length h
  rw [List.length_append, List.length_take, List.length_cons] at hlen
  omega

theorem RefusedAt.le {i i' : Nat} {t t' : Token} (h : RefusedAt budget tokens i t) (h' : RefusedAt budget' tokens i' t')
    (hb : budget ≤ budget') : i ≤ i' := by
  obtain ⟨f, hf, -, ht⟩ := h
  obtain ⟨f', hf', -, ht'⟩ := h'
  have hlen := length_eq_of_take ht
  have hlen' := length_eq_of_take ht'
  rcases whole_eq_or_refused hb tokens with heq | ⟨f₁, hf₁, -, hle⟩
  · cases hf.symm.trans (heq.trans hf')
    omega
  · cases hf.symm.trans hf₁
    rw [hf', tokensLeft] at hle
    omega

/-- A parse that is refused a charge is refused it at a token where an operand has to come next, which is not the end. -/
theorem exists_refusedAt {err : ParseError} (h : Expr.ofTokens budget tokens = .error err)
    (hc : err.cause = .nestingTooDeep) : ∃ i t, RefusedAt budget tokens i t ∧ tokens[i]? = some t ∧ WantsOperand t ∧
      err = ⟨.nestingTooDeep, .atLexeme t.lexeme, t.line⟩ := by
  obtain ⟨f, hf, rfl⟩ := ofTokens_eq_error_iff_whole.1 h
  obtain ⟨x, cost, p, t, rfl, ht, hwants, -⟩ := (fails_of_whole hf hc).refused_at hc
  have ht : tokens = p ++ t :: x.rest := ht
  have hne : t.kind ≠ .eof := by
    rcases hwants with hk | ⟨op, hk⟩ | ⟨op, hk⟩ <;> simp [hk]
  refine ⟨p.length, t, ⟨_, hf, State.error_refused, ?_⟩, ?_, hwants, ?_⟩
  · rw [State.rest_refused, ht, List.take_left]
  · rw [ht, List.getElem?_append_right (Nat.le_refl _), Nat.sub_self]
    rfl
  · rw [State.error_refused, ParseError.atToken, Location.ofToken, if_neg hne]

theorem ofTokens_eq_or_refused (hb : budget ≤ budget') (tokens : List Token) :
    Expr.ofTokens budget tokens = Expr.ofTokens budget' tokens ∨
      ∃ err, Expr.ofTokens budget tokens = .error err ∧ err.cause = .nestingTooDeep := by
  rcases whole_eq_or_refused hb tokens with heq | ⟨f, hf, hc, -⟩
  · refine .inl ?_
    rw [Expr.ofTokens, Expr.ofTokens, heq]
  · exact .inr ⟨f.error, ofTokens_eq_error_iff_whole.2 ⟨f, hf, rfl⟩, hc⟩

/-- **A budget only ever refuses, and a smaller one no later.**  Of two budgets the smaller one gives the same tree or the same
error, or it refuses a charge.  A charge is refused at a token that an operand has to follow, and never at the end; and when
both budgets refuse one, the smaller does it at the same token or at an earlier one.  So a run that yields a value yields it
under every greater budget.  The sums of a depth and a charge are words under both budgets. -/
theorem ofTokens_under_budgets (budget budget' : Nat) (tokens : List Token) (hb : budget ≤ budget')
    (hn : tokens.length < 0x4000000000000000) :
    (Expr.ofTokens budget tokens = Expr.ofTokens budget' tokens ∨
      ∃ err, Expr.ofTokens budget tokens = .error err ∧ err.cause = .nestingTooDeep) ∧
    (∀ i t i' t', RefusedAt budget tokens i t → RefusedAt budget' tokens i' t' → i ≤ i') ∧
    (∀ b err, Expr.ofTokens b tokens = .error err → err.cause = .nestingTooDeep →
      ∃ i t, RefusedAt b tokens i t ∧ tokens[i]? = some t ∧ WantsOperand t ∧
        err = ⟨.nestingTooDeep, .atLexeme t.lexeme, t.line⟩) ∧
    (∀ source sink v, (Run.ofText budget source sink).outcome = .value v →
      Run.ofText budget' source sink = Run.ofText budget source sink) ∧
    asked budget tokens ≤ greatestWord ∧ asked budget' tokens ≤ greatestWord :=
  ⟨ofTokens_eq_or_refused hb tokens, fun _ _ _ _ h h' => h.le h' hb, fun _ _ => exists_refusedAt,
    fun _ _ _ => Run.ofText_mono hb, asked_le_greatestWord budget hn, asked_le_greatestWord budget' hn⟩

/-- A negated group that ends where the operand of its link should be. -/
def brokenTokens : List Token :=
  [UnaryOp.token .negate 1, Symbol.token .leftParen 1, ⟨.keyword .nilWord, "nil", none, 1⟩, BinaryOp.token .add 2, Token.eof 2]

/-- Within three units the group is refused, within five the link in it. -/
theorem refusedAt_brokenTokens : 3 ≤ 5 ∧ brokenTokens.length < 0x4000000000000000 ∧
    RefusedAt 3 brokenTokens 1 (Symbol.token .leftParen 1) ∧ RefusedAt 5 brokenTokens 3 (BinaryOp.token .add 2) ∧ 1 ≤ 3 ∧
    ∃ err, Expr.ofTokens 3 brokenTokens = .error err ∧ err.cause = .nestingTooDeep := by
  have h₃ : whole 3 brokenTokens =
      .error (.failed ⟨.nestingTooDeep, .atLexeme "(", 1⟩ ⟨brokenTokens.drop 2, 1, 1, 1, 5⟩) := by cbv
  have h₅ : whole 5 brokenTokens =
      .error (.failed ⟨.nestingTooDeep, .atLexeme "+", 2⟩ ⟨brokenTokens.drop 4, 2, 5, 5, 6⟩) := by cbv
  have hn : brokenTokens.length < 0x4000000000000000 := by decide
  have href₃ : RefusedAt 3 brokenTokens 1 (Symbol.token .leftParen 1) := ⟨_, h₃, rfl, rfl⟩
  have href₅ : RefusedAt 5 brokenTokens 3 (BinaryOp.token .add 2) := ⟨_, h₅, rfl, rfl⟩
  obtain ⟨hsame, horder, -⟩ := ofTokens_under_budgets 3 5 brokenTokens (by decide) hn
  refine ⟨by decide, hn, href₃, href₅, horder _ _ _ _ href₃ href₅, hsame.resolve_left fun heq => ?_⟩
  rw [Expr.ofTokens, Expr.ofTokens, h₃, h₅] at heq
  exact absurd (Except.error.inj heq) (by decide)

end
end Parsing
end LoxExpr
