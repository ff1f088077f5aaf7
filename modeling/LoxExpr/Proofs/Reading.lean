import LoxExpr.Parsing
/-!
# Readings: what the rules do, as relations

`readWith` and `chainWith` call one another, and each result carries the proof that tokens were used up.  Here they are one
function on *tasks* without those proofs (`run`), and what it does is said by two inductive relations: `Reads`, one case for
each way to come to a tree, and `Fails`, one case for each way to stop.  Every task does one of the two (`reads_or_fails`),
and `run` computes which (`run_eq_ok_iff`, `run_eq_error_iff`); so a fact about all readings is an induction on a relation,
and the rules themselves need not be opened again.

The relations are those of a parse that stops at an overflow.  What becomes of one matters only where there is one
(`run_eq_run_stops`).
-/
namespace LoxExpr
namespace Parsing

/-! ## Charges -/

namespace State

/-- What comes of `cost` units that the budget does not cover.  Only a budget below the greatest word can refuse them. -/
def refused (budget cost : Nat) (t : Token) (s : State) : Failure :=
  if budget < greatestWord then .failed (ParseError.atToken .nestingTooDeep t) (s.notCharged cost)
  else .overflowed t (s.notCharged cost)

section
variable {o : Overflow} {budget cost : Nat} {t : Token} {s : State}

/-- **A charge that the budget covers is made**, whatever an overflow does. -/
theorem descend_of_le (h : s.depth + cost ≤ budget) : s.descend o budget cost t = .ok ⟨s.charged cost, rfl⟩ := by
  have hgreatest : budget ≤ greatestDepth budget := Nat.le_max_left _ _
  unfold descend
  rw [if_neg (by omega), if_pos (by omega)]

/-- **A charge that the budget does not cover is refused**, whatever stands for a sum that is no word, or it overflows. -/
theorem descend_of_not_le (h : ¬ s.depth + cost ≤ budget)
    (ho : o = .stops ∨ ∀ t' x, s.refused budget cost t ≠ .overflowed t' x) :
    s.descend o budget cost t = .error (s.refused budget cost t) := by
  have hgreatest : greatestDepth budget = max budget greatestWord := rfl
  unfold descend refused at *
  by_cases hword : budget < greatestWord
  · rw [if_pos (by omega), if_pos hword]
  · rw [if_neg (by omega), if_neg (by omega), if_neg hword]
    rw [if_neg hword] at ho
    obtain rfl := ho.resolve_right fun hne => hne _ _ rfl
    rfl

theorem descend_eq_ok_iff {s' : { s' : State // s'.rest = s.rest }} :
    s.descend .stops budget cost t = .ok s' ↔ s.depth + cost ≤ budget ∧ s'.1 = s.charged cost := by
  by_cases h : s.depth + cost ≤ budget
  · rw [descend_of_le h]
    simp [h, Subtype.ext_iff, eq_comm]
  · rw [descend_of_not_le h (.inl rfl)]
    simp [h]

theorem state_refused : (s.refused budget cost t).state = s.notCharged cost := by
  unfold refused; split <;> rfl

theorem error_refused : (s.refused budget cost t).error = ParseError.atToken .nestingTooDeep t := by
  unfold refused; split <;> rfl

@[simp] theorem rest_refused : (s.refused budget cost t).state.rest = s.rest := by
  rw [state_refused]; rfl

@[simp] theorem cause_refused : (s.refused budget cost t).error.cause = .nestingTooDeep := by
  rw [error_refused]; rfl

end
end State

/-! ## Tasks -/

/-- **What is to be read**: an expression by a rule, or the rest of a chain of the layer `l` behind its operand `left`. -/
inductive Task where
  | rule (r : Rule)
  | links (l : Layer) (left : Expr)

/-- A task carried out, without the proof that its result carries. -/
def run (o : Overflow) (budget : Nat) : Task → State → Except Failure (Expr × State)
  | .rule r, s => (readWith o budget r s).map Subtype.val
  | .links l left, s => (chainWith o budget l left s).map Subtype.val

section
variable {o : Overflow} {budget : Nat} {l : Layer} {s s₁ : State} {t : Token}

theorem run_layer : run o budget (.rule (.layer l)) s =
    (run o budget (.rule (Rule.operandOf l)) s).bind fun r =>
      (run o budget (.links l r.1) r.2).map fun r' => (r'.1, r'.2.restore s.depth) := by
  simp only [run]
  rw [readWith]
  cases readWith o budget (Rule.operandOf l) s with
  | error f => rfl
  | ok r =>
    obtain ⟨⟨left, s₁⟩, h₁⟩ := r
    simp only [bind, Except.bind, Except.map]
    cases chainWith o budget l left s₁ <;> rfl

theorem run_unary_of_none (h : s.prefixOp? = none) :
    run o budget (.rule .unary) s = run o budget (.rule .primary) s := by
  simp only [run]
  rw [readWith]
  split
  · rfl
  · next h' => rw [h] at h'; cases h'

theorem run_unary_of_some {op : UnaryOp} (h : s.prefixOp? = some (op, t, s₁)) : run o budget (.rule .unary) s =
    (s₁.descend o budget operatorCost t).bind fun s₂ =>
      (run o budget (.rule .unary) s₂.1).map fun r => (.unary op t r.1, r.2.restore s.depth) := by
  simp only [run]
  rw [readWith]
  split
  · next h' => rw [h] at h'; cases h'
  · next h' =>
    rw [h] at h'
    cases h'
    cases s₁.descend o budget operatorCost t with
    | error f => rfl
    | ok s₂ =>
      simp only [bind, Except.bind]
      cases readWith o budget .unary s₂.1 <;> rfl

theorem run_primary_of_none (h : s.next? = none) :
    run o budget (.rule .primary) s = .error (s.failHere .expectedExpression) := by
  simp only [run]
  rw [readWith]
  split
  · rfl
  · next h' => rw [h] at h'; cases h'

/-- The rest of a group once its inner expression is read; `s` is the state in front of the group. -/
def closeGroup (s : State) (r : Expr × State) : Except Failure (Expr × State) :=
  match (r.2.restore s.depth).closingParen? with
  | some s₃ => .ok (.group r.1, s₃)
  | none => .error ((r.2.restore s.depth).failHere .expectedClosingParen)

theorem run_primary_of_some (h : s.next? = some (t, s₁)) : run o budget (.rule .primary) s =
    match literalOf? t with
    | some v => .ok (.literal v, s₁)
    | none =>
      if t.kind = .symbol .leftParen then
        (s₁.descend o budget groupCost t).bind fun s₂ => (run o budget (.rule .expression) s₂.1).bind (closeGroup s)
      else .error (.failed (ParseError.atToken .expectedExpression t) s₁) := by
  simp only [run]
  rw [readWith]
  split
  · next h' => rw [h] at h'; cases h'
  · next h' =>
    rw [h] at h'
    cases h'
    cases literalOf? t with
    | some v => rfl
    | none =>
      dsimp only
      split
      · cases s₁.descend o budget groupCost t with
        | error f => rfl
        | ok s₂ =>
          simp only [bind, Except.bind]
          cases readWith o budget .expression s₂.1 with
          | error f => rfl
          | ok r =>
            obtain ⟨⟨e, s₃⟩, h₃⟩ := r
            dsimp only
            split <;> next hc => simp only [closeGroup, hc, Except.map]
      · rfl

theorem run_links_of_none {left : Expr} (h : s.linkOp? l = none) : run o budget (.links l left) s = .ok (left, s) := by
  simp only [run]
  rw [chainWith]
  split
  · rfl
  · next h' => rw [h] at h'; cases h'

theorem run_links_of_some {left : Expr} {op : BinaryOp} (h : s.linkOp? l = some (op, t, s₁)) :
    run o budget (.links l left) s =
      (s₁.descend o budget operatorCost t).bind fun s₂ =>
        (run o budget (.rule (Rule.operandOf l)) s₂.1).bind fun r => run o budget (.links l (.binary left op t r.1)) r.2 := by
  simp only [run]
  rw [chainWith]
  split
  · next h' => rw [h] at h'; cases h'
  · next h' =>
    rw [h] at h'
    cases h'
    cases s₁.descend o budget operatorCost t with
    | error f => rfl
    | ok s₂ =>
      simp only [bind, Except.bind]
      cases readWith o budget (Rule.operandOf l) s₂.1 with
      | error f => rfl
      | ok r =>
        obtain ⟨⟨right, s₃⟩, h₃⟩ := r
        simp only [Except.map]
        cases chainWith o budget l (.binary left op t right) s₃ <;> rfl

end

/-! ## Coming to a tree -/

/-- **A task reads**: from the first state it comes to the tree and leaves the second state. -/
inductive Reads (budget : Nat) : Task → State → Expr → State → Prop
  | layer {l s left s₁ e s₂} : Reads budget (.rule (Rule.operandOf l)) s left s₁ → Reads budget (.links l left) s₁ e s₂ →
      Reads budget (.rule (.layer l)) s e (s₂.restore s.depth)
  | noPrefix {s e s₁} : s.prefixOp? = none → Reads budget (.rule .primary) s e s₁ → Reads budget (.rule .unary) s e s₁
  | withPrefix {s op t s₁ e s₂} : s.prefixOp? = some (op, t, s₁) → s₁.depth + operatorCost ≤ budget →
      Reads budget (.rule .unary) (s₁.charged operatorCost) e s₂ →
      Reads budget (.rule .unary) s (.unary op t e) (s₂.restore s.depth)
  | literal {s t s₁ v} : s.next? = some (t, s₁) → literalOf? t = some v →
      Reads budget (.rule .primary) s (.literal v) s₁
  | group {s t s₁ e s₂ s₃} : s.next? = some (t, s₁) → literalOf? t = none → t.kind = .symbol .leftParen →
      s₁.depth + groupCost ≤ budget → Reads budget (.rule .expression) (s₁.charged groupCost) e s₂ →
      (s₂.restore s.depth).closingParen? = some s₃ → Reads budget (.rule .primary) s (.group e) s₃
  | noLink {l left s} : s.linkOp? l = none → Reads budget (.links l left) s left s
  | link {l left s op t s₁ right s₂ e s₃} : s.linkOp? l = some (op, t, s₁) → s₁.depth + operatorCost ≤ budget →
      Reads budget (.rule (Rule.operandOf l)) (s₁.charged operatorCost) right s₂ →
      Reads budget (.links l (.binary left op t right)) s₂ e s₃ → Reads budget (.links l left) s e s₃

/-! ## Stopping -/

/-- **A task fails** from a state. -/
inductive Fails (budget : Nat) : Task → State → Failure → Prop
  | operand {l s f} : Fails budget (.rule (Rule.operandOf l)) s f → Fails budget (.rule (.layer l)) s f
  | chain {l s left s₁ f} : Reads budget (.rule (Rule.operandOf l)) s left s₁ → Fails budget (.links l left) s₁ f →
      Fails budget (.rule (.layer l)) s f
  | noPrefix {s f} : s.prefixOp? = none → Fails budget (.rule .primary) s f → Fails budget (.rule .unary) s f
  | prefixRefused {s op t s₁} : s.prefixOp? = some (op, t, s₁) → ¬ s₁.depth + operatorCost ≤ budget →
      Fails budget (.rule .unary) s (s₁.refused budget operatorCost t)
  | withPrefix {s op t s₁ f} : s.prefixOp? = some (op, t, s₁) → s₁.depth + operatorCost ≤ budget →
      Fails budget (.rule .unary) (s₁.charged operatorCost) f → Fails budget (.rule .unary) s f
  | noToken {s} : s.next? = none → Fails budget (.rule .primary) s (s.failHere .expectedExpression)
  | noExpression {s t s₁} : s.next? = some (t, s₁) → literalOf? t = none → t.kind ≠ .symbol .leftParen →
      Fails budget (.rule .primary) s (.failed (ParseError.atToken .expectedExpression t) s₁)
  | groupRefused {s t s₁} : s.next? = some (t, s₁) → literalOf? t = none → t.kind = .symbol .leftParen →
      ¬ s₁.depth + groupCost ≤ budget → Fails budget (.rule .primary) s (s₁.refused budget groupCost t)
  | inGroup {s t s₁ f} : s.next? = some (t, s₁) → literalOf? t = none → t.kind = .symbol .leftParen →
      s₁.depth + groupCost ≤ budget → Fails budget (.rule .expression) (s₁.charged groupCost) f →
      Fails budget (.rule .primary) s f
  | unclosed {s t s₁ e s₂} : s.next? = some (t, s₁) → literalOf? t = none → t.kind = .symbol .leftParen →
      s₁.depth + groupCost ≤ budget → Reads budget (.rule .expression) (s₁.charged groupCost) e s₂ →
      (s₂.restore s.depth).closingParen? = none →
      Fails budget (.rule .primary) s ((s₂.restore s.depth).failHere .expectedClosingParen)
  | linkRefused {l left s op t s₁} : s.linkOp? l = some (op, t, s₁) → ¬ s₁.depth + operatorCost ≤ budget →
      Fails budget (.links l left) s (s₁.refused budget operatorCost t)
  | right {l left s op t s₁ f} : s.linkOp? l = some (op, t, s₁) → s₁.depth + operatorCost ≤ budget →
      Fails budget (.rule (Rule.operandOf l)) (s₁.charged operatorCost) f → Fails budget (.links l left) s f
  | link {l left s op t s₁ right s₂ f} : s.linkOp? l = some (op, t, s₁) → s₁.depth + operatorCost ≤ budget →
      Reads budget (.rule (Rule.operandOf l)) (s₁.charged operatorCost) right s₂ →
      Fails budget (.links l (.binary left op t right)) s₂ f → Fails budget (.links l left) s f

/-! ## The relations and the function -/

section
variable {budget : Nat} {task : Task} {s s' : State} {e : Expr} {f : Failure}

/-- A task that reads does so whatever an overflow does. -/
theorem Reads.run {o : Overflow} (h : Reads budget task s e s') : run o budget task s = .ok (e, s') := by
  induction h with
  | layer _ _ ih₁ ih₂ => rw [run_layer, ih₁, Except.bind, ih₂]; rfl
  | noPrefix hp _ ih => rw [run_unary_of_none hp, ih]
  | withPrefix hp hb _ ih => rw [run_unary_of_some hp, State.descend_of_le hb, Except.bind, ih]; rfl
  | literal hn hv => rw [run_primary_of_some hn, hv]
  | group hn hv hk hb _ hc ih =>
    rw [run_primary_of_some hn, hv]
    simp only [hk, if_true, State.descend_of_le hb, ih, Except.bind, closeGroup, hc]
  | noLink hl => exact run_links_of_none hl
  | link hl hb _ _ ih₁ ih₂ => rw [run_links_of_some hl, State.descend_of_le hb, Except.bind, ih₁, Except.bind, ih₂]

/-- A task that fails does so whatever an overflow does, unless it fails with one. -/
theorem Fails.runWith (h : Fails budget task s f) {o : Overflow} (ho : o = .stops ∨ ∀ t x, f ≠ .overflowed t x) :
    run o budget task s = .error f := by
  induction h with
  | operand _ ih => rw [run_layer, ih ho]; rfl
  | chain hr _ ih => rw [run_layer, hr.run, Except.bind, ih ho]; rfl
  | noPrefix hp _ ih => rw [run_unary_of_none hp, ih ho]
  | prefixRefused hp hb => rw [run_unary_of_some hp, State.descend_of_not_le hb ho]; rfl
  | withPrefix hp hb _ ih => rw [run_unary_of_some hp, State.descend_of_le hb, Except.bind, ih ho]; rfl
  | noToken hn => exact run_primary_of_none hn
  | noExpression hn hv hk => rw [run_primary_of_some hn, hv]; simp only [hk, if_false]
  | groupRefused hn hv hk hb =>
    rw [run_primary_of_some hn, hv]
    simp only [hk, if_true, State.descend_of_not_le hb ho, Except.bind]
  | inGroup hn hv hk hb _ ih =>
    rw [run_primary_of_some hn, hv]
    simp only [hk, if_true, State.descend_of_le hb, ih ho, Except.bind]
  | unclosed hn hv hk hb hr hc =>
    rw [run_primary_of_some hn, hv]
    simp only [hk, if_true, State.descend_of_le hb, hr.run, Except.bind, closeGroup, hc]
  | linkRefused hl hb => rw [run_links_of_some hl, State.descend_of_not_le hb ho]; rfl
  | right hl hb _ ih => rw [run_links_of_some hl, State.descend_of_le hb, Except.bind, ih ho]; rfl
  | link hl hb hr _ ih => rw [run_links_of_some hl, State.descend_of_le hb, Except.bind, hr.run, Except.bind, ih ho]

theorem Fails.run (h : Fails budget task s f) : Parsing.run .stops budget task s = .error f := h.runWith (.inl rfl)

theorem Reads.length_lt {r : Rule} (h : Reads budget (.rule r) s e s') : s'.rest.length < s.rest.length := by
  have hr : Parsing.run .stops budget (.rule r) s = .ok (e, s') := h.run
  simp only [Parsing.run] at hr
  cases hc : readWith .stops budget r s with
  | error f => rw [hc] at hr; cases hr
  | ok x =>
    rw [hc] at hr
    have hx : x.1 = (e, s') := Except.ok.inj hr
    have := x.2
    rw [hx] at this
    exact this

/-- **Every task reads or fails**, whatever the tokens and the budget. -/
theorem reads_or_fails (budget : Nat) (task : Task) (s : State) :
    (∃ e s', Reads budget task s e s') ∨ ∃ f, Fails budget task s f := by
  have h : (∀ r s, (∃ e s', Reads budget (.rule r) s e s') ∨ ∃ f, Fails budget (.rule r) s f) ∧
      ∀ l left s, (∃ e s', Reads budget (.links l left) s e s') ∨ ∃ f, Fails budget (.links l left) s f := by
    refine readWith.mutual_induct _ _ ?layer ?noPrefix ?withPrefix ?noToken ?literal ?group ?noExpression ?noLink ?link
    case layer =>
      intro s l ihOperand ihLinks
      rcases ihOperand with ⟨left, s₁, hr⟩ | ⟨f, hf⟩
      · rcases ihLinks left s₁ hr.length_lt with ⟨e, s₂, hl⟩ | ⟨f, hf⟩
        · exact .inl ⟨e, _, .layer hr hl⟩
        · exact .inr ⟨f, .chain hr hf⟩
      · exact .inr ⟨f, .operand hf⟩
    case noPrefix =>
      intro s hp ih
      rcases ih with ⟨e, s₁, hr⟩ | ⟨f, hf⟩
      · exact .inl ⟨e, s₁, .noPrefix hp hr⟩
      · exact .inr ⟨f, .noPrefix hp hf⟩
    case withPrefix =>
      intro s op t s₁ hp ih
      by_cases hb : s₁.depth + operatorCost ≤ budget
      · rcases ih (s₁.charged operatorCost) rfl with ⟨e, s₂, hr⟩ | ⟨f, hf⟩
        · exact .inl ⟨_, _, .withPrefix hp hb hr⟩
        · exact .inr ⟨f, .withPrefix hp hb hf⟩
      · exact .inr ⟨_, .prefixRefused hp hb⟩
    case noToken => exact fun s hn => .inr ⟨_, .noToken hn⟩
    case literal => exact fun s t s₁ hn v hv => .inl ⟨_, _, .literal hn hv⟩
    case group =>
      intro s t s₁ hn hv hk ih
      by_cases hb : s₁.depth + groupCost ≤ budget
      · rcases ih (s₁.charged groupCost) rfl with ⟨e, s₂, hr⟩ | ⟨f, hf⟩
        · cases hc : (s₂.restore s.depth).closingParen? with
          | some s₃ => exact .inl ⟨_, s₃, .group hn hv hk hb hr hc⟩
          | none => exact .inr ⟨_, .unclosed hn hv hk hb hr hc⟩
        · exact .inr ⟨f, .inGroup hn hv hk hb hf⟩
      · exact .inr ⟨_, .groupRefused hn hv hk hb⟩
    case noExpression => exact fun s t s₁ hn hv hk => .inr ⟨_, .noExpression hn hv hk⟩
    case noLink => exact fun l left s hl => .inl ⟨left, s, .noLink hl⟩
    case link =>
      intro l left s op t s₁ hl ihRight ihLinks
      by_cases hb : s₁.depth + operatorCost ≤ budget
      · rcases ihRight (s₁.charged operatorCost) rfl with ⟨right, s₂, hr⟩ | ⟨f, hf⟩
        · rcases ihLinks (s₁.charged operatorCost) rfl right s₂ hr.length_lt with ⟨e, s₃, hl'⟩ | ⟨f, hf⟩
          · exact .inl ⟨e, s₃, .link hl hb hr hl'⟩
          · exact .inr ⟨f, .link hl hb hr hf⟩
        · exact .inr ⟨f, .right hl hb hf⟩
      · exact .inr ⟨_, .linkRefused hl hb⟩
  cases task with
  | rule r => exact h.1 r s
  | links l left => exact h.2 l left s

theorem run_eq_ok_iff : run .stops budget task s = .ok (e, s') ↔ Reads budget task s e s' := by
  refine ⟨fun h => ?_, Reads.run⟩
  rcases reads_or_fails budget task s with ⟨e₁, s₁, hr⟩ | ⟨f, hf⟩
  · rw [hr.run] at h; cases h; exact hr
  · rw [hf.run] at h; cases h

theorem run_eq_error_iff : run .stops budget task s = .error f ↔ Fails budget task s f := by
  refine ⟨fun h => ?_, Fails.run⟩
  rcases reads_or_fails budget task s with ⟨e, s₁, hr⟩ | ⟨f₁, hf⟩
  · rw [hr.run] at h; cases h
  · rw [hf.run] at h; cases h; exact hf

/-- **What becomes of an overflow matters only where there is one.** -/
theorem run_eq_run_stops (o : Overflow) (h : ∀ t x, run .stops budget task s ≠ .error (.overflowed t x)) :
    run o budget task s = run .stops budget task s := by
  rcases reads_or_fails budget task s with ⟨e, s₁, hr⟩ | ⟨f, hf⟩
  · rw [hr.run, hr.run]
  · rw [hf.run] at h ⊢
    exact hf.runWith (.inr fun t x heq => h t x (congrArg _ heq))

theorem Reads.unique {e₁ : Expr} {s₁ : State} (h : Reads budget task s e s') (h₁ : Reads budget task s e₁ s₁) :
    e = e₁ ∧ s' = s₁ := by
  have heq : Except.ok (e, s') = Except.ok (e₁, s₁) := (run_eq_ok_iff.2 h).symm.trans (run_eq_ok_iff.2 h₁)
  cases heq; exact ⟨rfl, rfl⟩

end

/-! ## Whole expressions -/

/-- The tokens are used up, or the closing token is next. -/
def AtEnd (rest : List Token) : Prop := ∀ t ∈ rest.head?, t.kind = .eof

section
variable {budget : Nat} {tokens : List Token} {e : Expr} {s : State}

theorem whole_eq : whole budget tokens = (run .stops budget (.rule .expression) (State.start tokens)).bind fun r =>
    match r.2.next? with
    | none => .ok r
    | some (t, _) => if t.kind = .eof then .ok r else .error (r.2.failHere .unexpectedTrailingTokens) := by
  rw [whole, read, run]
  cases readWith .stops budget .expression (State.start tokens) with
  | error f => rfl
  | ok r => rfl

theorem atEnd_iff_next? : AtEnd s.rest ↔ ∀ t s₁, s.next? = some (t, s₁) → t.kind = .eof := by
  unfold AtEnd State.next?
  cases s.rest <;> simp

theorem ofTokens_eq_ok_iff_whole : Expr.ofTokens budget tokens = .ok e ↔ ∃ s, whole budget tokens = .ok (e, s) := by
  unfold Expr.ofTokens
  split <;> next h => simp [h]

theorem ofTokens_eq_error_iff_whole {err : ParseError} :
    Expr.ofTokens budget tokens = .error err ↔ ∃ f, whole budget tokens = .error f ∧ f.error = err := by
  unfold Expr.ofTokens
  split <;> next h => simp [h]

/-- **A tree is the whole list's** when the rule of expressions reads it and stops at the end. -/
theorem ofTokens_eq_ok_iff : Expr.ofTokens budget tokens = .ok e ↔
    ∃ s, Reads budget (.rule .expression) (State.start tokens) e s ∧ AtEnd s.rest := by
  rw [ofTokens_eq_ok_iff_whole]
  refine exists_congr fun s => ?_
  rw [whole_eq, ← run_eq_ok_iff, atEnd_iff_next?]
  cases run .stops budget (.rule .expression) (State.start tokens) with
  | error f => simp [Except.bind]
  | ok r =>
    simp only [Except.bind, Except.ok.injEq]
    constructor
    · intro h
      split at h
      · next hn => cases h; exact ⟨rfl, fun t s₁ h₁ => by rw [hn] at h₁; cases h₁⟩
      · next t s₁ hn =>
        split at h
        · next hk => cases h; exact ⟨rfl, fun t' s' h' => by rw [hn] at h'; cases h'; exact hk⟩
        · cases h
    · rintro ⟨rfl, hk⟩
      split
      · rfl
      · next t s₁ hn => rw [if_pos (hk t s₁ hn)]

end
end Parsing
end LoxExpr
