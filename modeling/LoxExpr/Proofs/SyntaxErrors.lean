import LoxExpr.Proofs.Acceptance
import LoxExpr.Proofs.Beginnings
/-!
# Syntax errors: where a list is refused, and why

A reading looks at its own tokens and at one more, and the same holds of a failure that is not a refused charge.  So both go
over to every list with the same tokens up to there, and to every greater budget (`Reads.ahead`, `Fails.ahead`).  The tokens
before the one that a failure is at have begun an expression (`Begins`), and they can be completed; with that token they
cannot, since a longer list that is an expression would be read under a budget that is great enough, and is refused under
all of them.

`ofTokens_error_first_impossible` says this of whole lists, with the place and the cause of the error.
-/
namespace LoxExpr
namespace Parsing

open Grammar

/-! ## What the next token decides -/

def State.withRest (s : State) (ts : List Token) : State := { s with rest := ts }

section
variable {s s₁ : State} {t : Token} {us : List Token}

theorem State.next?_ahead (h : s.next? = some (t, s₁)) : ∃ ts, s.rest = t :: ts ∧ s₁ = s.advance t ts ∧
    ∀ us, (s.withRest (t :: us)).next? = some (t, s₁.withRest us) := by
  obtain ⟨ts, hs, rfl⟩ := State.next?_eq_some_iff.1 h
  exact ⟨ts, hs, rfl, fun us => rfl⟩

theorem State.prefixOp?_ahead {op : UnaryOp} (h : s.prefixOp? = some (op, t, s₁)) :
    t.kind = .symbol op.symbol ∧ ∃ ts, s.rest = t :: ts ∧ s₁ = s.advance t ts ∧
      ∀ us, (s.withRest (t :: us)).prefixOp? = some (op, t, s₁.withRest us) := by
  obtain ⟨hn, hk⟩ := State.prefixOp?_eq_some_iff.1 h
  obtain ⟨ts, hs, hs₁, hahead⟩ := State.next?_ahead hn
  exact ⟨hk, ts, hs, hs₁, fun us => State.prefixOp?_eq_some_iff.2 ⟨hahead us, hk⟩⟩

theorem State.linkOp?_ahead {l : Layer} {op : BinaryOp} (h : s.linkOp? l = some (op, t, s₁)) :
    (t.kind = .symbol op.symbol ∧ op.layer = l) ∧ ∃ ts, s.rest = t :: ts ∧ s₁ = s.advance t ts ∧
      ∀ us, (s.withRest (t :: us)).linkOp? l = some (op, t, s₁.withRest us) := by
  obtain ⟨hn, hk⟩ := State.linkOp?_eq_some_iff.1 h
  obtain ⟨ts, hs, hs₁, hahead⟩ := State.next?_ahead hn
  exact ⟨hk, ts, hs, hs₁, fun us => State.linkOp?_eq_some_iff.2 ⟨hahead us, hk⟩⟩

theorem State.closingParen?_ahead (h : s.closingParen? = some s₁) : ∃ t ts, s.rest = t :: ts ∧ s₁ = s.advance t ts ∧
    ∀ us, (s.withRest (t :: us)).closingParen? = some (s₁.withRest us) := by
  obtain ⟨t, hn, hk⟩ := State.closingParen?_eq_some_iff.1 h
  obtain ⟨ts, hs, hs₁, hahead⟩ := State.next?_ahead hn
  exact ⟨t, ts, hs, hs₁, fun us => State.closingParen?_eq_some_iff.2 ⟨t, hahead us, hk⟩⟩

/-- What is missing by the kind of the next token is missing whatever follows that. -/
theorem State.bind_next?_withRest {α : Type} {f : Token × State → Option α}
    (hf : ∀ t s₁ s₂, f (t, s₁) = none → f (t, s₂) = none) (h : s.next?.bind f = none) (hh : us.head? = s.rest.head?) :
    (s.withRest us).next?.bind f = none := by
  cases us with
  | nil => rfl
  | cons t us =>
    obtain ⟨ts, hs⟩ := List.head?_eq_some_iff.1 hh.symm
    rw [State.next?_of_rest hs] at h
    exact hf t _ _ h

theorem State.prefixOp?_withRest (h : s.prefixOp? = none) (hh : us.head? = s.rest.head?) :
    (s.withRest us).prefixOp? = none :=
  State.bind_next?_withRest (by simp) h hh

theorem State.linkOp?_withRest {l : Layer} (h : s.linkOp? l = none) (hh : us.head? = s.rest.head?) :
    (s.withRest us).linkOp? l = none :=
  State.bind_next?_withRest (by simp) h hh

theorem State.closingParen?_withRest (h : s.closingParen? = none) (hh : us.head? = s.rest.head?) :
    (s.withRest us).closingParen? = none :=
  State.bind_next?_withRest (by simp) h hh

theorem head?_append_congr {u r r' : List Token} (h : r'.head? = r.head?) : (u ++ r').head? = (u ++ r).head? := by
  cases u with
  | nil => exact h
  | cons t u => rfl

end

/-! ## Readings -/

/-- The line of the last token of `u`, or `line` when there is none. -/
def lineBehind (line : Nat) (u : List Token) : Nat := u.foldl (fun _ t => t.line) line

theorem lineBehind_append (line : Nat) (u v : List Token) : lineBehind line (u ++ v) = lineBehind (lineBehind line u) v :=
  List.foldl_append

/-- A reading of the tokens `u` that comes to the same tree whatever follows the token behind them, and whatever more the
budget allows. -/
def ReadsAhead (budget : Nat) (task : Task) (s : State) (e : Expr) (s' : State) (u : List Token) : Prop :=
  s.rest = u ++ s'.rest ∧ s'.lastLine = lineBehind s.lastLine u ∧
    ∀ budget' ≥ budget, ∀ rest : List Token, rest.head? = s'.rest.head? →
      Reads budget' task (s.withRest (u ++ rest)) e (s'.withRest rest)

section
variable {budget : Nat} {task : Task} {s s' : State} {e : Expr}

/-- **A reading looks at its own tokens and at the next one.** -/
theorem Reads.ahead (h : Reads budget task s e s') : ∃ u, ReadsAhead budget task s e s' u := by
  induction h with
  | @layer l s left s₁ e s₂ _ _ ih₁ ih₂ =>
    obtain ⟨u, hu, hline₁, hr₁⟩ := ih₁
    obtain ⟨v, hv, hline₂, hr₂⟩ := ih₂
    refine ⟨u ++ v, by rw [hu, hv, List.append_assoc]; rfl, ?_, fun budget' hb rest hh => ?_⟩
    · rw [lineBehind_append, ← hline₁]; exact hline₂
    · rw [List.append_assoc]
      exact .layer (hr₁ budget' hb (v ++ rest) (by rw [hv]; exact head?_append_congr hh)) (hr₂ budget' hb rest hh)
  | @noPrefix s e s₁ hp _ ih =>
    obtain ⟨u, hu, hline, hr⟩ := ih
    refine ⟨u, hu, hline, fun budget' hb rest hh => .noPrefix (State.prefixOp?_withRest hp ?_) (hr budget' hb rest hh)⟩
    rw [hu]; exact head?_append_congr hh
  | @withPrefix s op t s₁ e s₂ hp hcost _ ih =>
    obtain ⟨u, hu, hline, hr⟩ := ih
    obtain ⟨-, ts, hs, rfl, hahead⟩ := State.prefixOp?_ahead hp
    refine ⟨t :: u, by rw [hs]; exact congrArg _ hu, hline, fun budget' hb rest hh => ?_⟩
    exact .withPrefix (hahead (u ++ rest)) (Nat.le_trans hcost hb) (hr budget' hb rest hh)
  | @literal s t s₁ v hn hv =>
    obtain ⟨ts, hs, rfl, hahead⟩ := State.next?_ahead hn
    exact ⟨[t], hs, rfl, fun budget' _ rest _ => .literal (hahead rest) hv⟩
  | @group s t s₁ e s₂ s₃ hn hv hk hcost _ hc ih =>
    obtain ⟨u, hu, hline, hr⟩ := ih
    obtain ⟨ts, hs, rfl, hahead⟩ := State.next?_ahead hn
    obtain ⟨t', ts', hs', rfl, hahead'⟩ := State.closingParen?_ahead hc
    have hts : ts = u ++ t' :: ts' := hu.trans (congrArg _ hs')
    refine ⟨t :: (u ++ [t']), ?_, ?_, fun budget' hb rest hh => ?_⟩
    · rw [hs, hts]; simp [State.advance]
    · rw [← List.cons_append, lineBehind_append]; rfl
    · have hinner := hr budget' hb (t' :: rest) (by rw [show s₂.rest = t' :: ts' from hs']; rfl)
      have htext : t :: (u ++ [t']) ++ rest = t :: (u ++ t' :: rest) := by simp
      rw [htext]
      exact .group (hahead (u ++ t' :: rest)) hv hk (Nat.le_trans hcost hb) hinner (hahead' rest)
  | @noLink l left s hl => exact ⟨[], rfl, rfl, fun budget' _ rest hh => .noLink (State.linkOp?_withRest hl hh)⟩
  | @link l left s op t s₁ right s₂ e s₃ hl hcost _ _ ih₁ ih₂ =>
    obtain ⟨u, hu, hline₁, hr₁⟩ := ih₁
    obtain ⟨v, hv, hline₂, hr₂⟩ := ih₂
    obtain ⟨-, ts, hs, rfl, hahead⟩ := State.linkOp?_ahead hl
    refine ⟨t :: (u ++ v), ?_, ?_, fun budget' hb rest hh => ?_⟩
    · rw [hs, show ts = u ++ s₂.rest from hu, hv]; simp
    · rw [hline₂, hline₁, ← List.cons_append, lineBehind_append]; rfl
    · have htext : t :: (u ++ v) ++ rest = t :: (u ++ (v ++ rest)) := by simp
      rw [htext]
      exact .link (hahead (u ++ (v ++ rest))) (Nat.le_trans hcost hb)
        (hr₁ budget' hb (v ++ rest) (by rw [hv]; exact head?_append_congr hh)) (hr₂ budget' hb rest hh)

end

/-! ## Where a reading fails -/

section
variable {budget : Nat} {task : Task} {s s' : State} {e : Expr} {f : Failure}

/-- The error at the first of the tokens `rest`, or at the end when none is left. -/
def errorAt (cause : ParseError.Cause) (line : Nat) : List Token → ParseError
  | t :: _ => ParseError.atToken cause t
  | [] => ⟨cause, .atEnd, line⟩

theorem State.error_failHere (s : State) (cause : ParseError.Cause) :
    (s.failHere cause).error = errorAt cause s.lastLine s.rest := by
  unfold State.failHere errorAt
  cases s.rest <;> rfl

theorem errorAt_congr {cause : ParseError.Cause} {line : Nat} {r r' : List Token} (h : r'.head? = r.head?) :
    errorAt cause line r' = errorAt cause line r := by
  cases r <;> cases r' <;> cases h <;> rfl

theorem cause_errorAt (cause : ParseError.Cause) (line : Nat) (rest : List Token) : (errorAt cause line rest).cause = cause := by
  cases rest <;> rfl

/-- What a task has begun with the tokens `p`. -/
def Begins : Task → List Token → ParseError.Cause → Prop
  | .rule r, p, c => Unfinished r p c
  | .links l left, p, c => ∀ u, Derives (.layer l) u left → Unfinished (.layer l) (u ++ p) c

/-- A failure behind the tokens `p` that is the same whatever follows the token it is at, and whatever more the budget allows. -/
def FailsAhead (budget : Nat) (task : Task) (s : State) (f : Failure) (p rest : List Token) : Prop :=
  s.rest = p ++ rest ∧ f.error = errorAt f.error.cause (lineBehind s.lastLine p) rest ∧ Begins task p f.error.cause ∧
    ∀ budget' ≥ budget, ∀ rest' : List Token, rest'.head? = rest.head? →
      ∃ f', Fails budget' task (s.withRest (p ++ rest')) f' ∧ f'.error = f.error

theorem Reads.ahead_makes (h : Reads budget task s e s') : ∃ u, ReadsAhead budget task s e s' u ∧ Makes task u e := by
  obtain ⟨u, hu⟩ := h.ahead
  obtain ⟨v, hv, hm⟩ := h.derives
  obtain rfl : u = v := List.append_cancel_right (hu.1.symm.trans hv)
  exact ⟨u, hu, hm⟩

/-- **A failure other than a refused charge looks at no token behind the one that it is at.** -/
theorem Fails.ahead (h : Fails budget task s f) (hc : f.error.cause ≠ .nestingTooDeep) :
    ∃ p rest, FailsAhead budget task s f p rest := by
  induction h with
  | operand _ ih =>
    obtain ⟨p, rest, hp, herr, hbegins, hf⟩ := ih hc
    refine ⟨p, rest, hp, herr, .operand (by rw [operandRule_eq]; exact hbegins), fun budget' hb rest' hh => ?_⟩
    obtain ⟨f', hf', he⟩ := hf budget' hb rest' hh
    exact ⟨f', .operand hf', he⟩
  | @chain l s left s₁ f hr _ ih =>
    obtain ⟨u, ⟨hu, hline, hread⟩, hm⟩ := hr.ahead_makes
    obtain ⟨p, rest, hp, herr, hbegins, hf⟩ := ih hc
    refine ⟨u ++ p, rest, by rw [hu, hp, List.append_assoc], by rw [lineBehind_append, ← hline]; exact herr, ?_,
      fun budget' hb rest' hh => ?_⟩
    · -- the first operand alone is what the links go on from
      exact hbegins u (.operand (by rw [operandRule_eq]; exact hm))
    · obtain ⟨f', hf', he⟩ := hf budget' hb rest' hh
      rw [List.append_assoc]
      exact ⟨f', .chain (hread budget' hb (p ++ rest') (by rw [hp]; exact head?_append_congr hh)) hf', he⟩
  | @noPrefix s f hp _ ih =>
    obtain ⟨p, rest, hs, herr, hbegins, hf⟩ := ih hc
    refine ⟨p, rest, hs, herr, .primary hbegins, fun budget' hb rest' hh => ?_⟩
    obtain ⟨f', hf', he⟩ := hf budget' hb rest' hh
    exact ⟨f', .noPrefix (State.prefixOp?_withRest hp (by rw [hs]; exact head?_append_congr hh)) hf', he⟩
  | prefixRefused => exact absurd State.cause_refused hc
  | @withPrefix s op t s₁ f hp hcost _ ih =>
    obtain ⟨p, rest, hr, herr, hbegins, hf⟩ := ih hc
    obtain ⟨hk, ts, hs, rfl, hahead⟩ := State.prefixOp?_ahead hp
    refine ⟨t :: p, rest, by rw [hs]; exact congrArg _ hr, herr, .withPrefix (mem_prefixes_iff.2 rfl) hk hbegins,
      fun budget' hb rest' hh => ?_⟩
    obtain ⟨f', hf', he⟩ := hf budget' hb rest' hh
    exact ⟨f', .withPrefix (hahead (p ++ rest')) (Nat.le_trans hcost hb) hf', he⟩
  | @noToken s hn =>
    have hs : s.rest = [] := by
      unfold State.next? at hn
      cases hs : s.rest with
      | nil => rfl
      | cons t ts => rw [hs] at hn; cases hn
    refine ⟨[], [], hs, ?_, ?_, fun budget' _ rest' hh => ?_⟩
    · simp only [State.failHere, hs]; rfl
    · simp only [State.failHere, hs]; exact .empty
    · obtain rfl : rest' = [] := List.head?_eq_none_iff.1 hh
      refine ⟨_, .noToken rfl, ?_⟩
      rw [State.error_failHere, State.error_failHere, hs]; rfl
  | @noExpression s t s₁ hn hv hk =>
    obtain ⟨ts, hs, rfl, hahead⟩ := State.next?_ahead hn
    refine ⟨[], t :: ts, hs, rfl, .empty, fun budget' _ rest' hh => ?_⟩
    obtain ⟨ts', rfl⟩ : ∃ ts', rest' = t :: ts' := List.head?_eq_some_iff.1 hh
    exact ⟨_, .noExpression (hahead ts') hv hk, rfl⟩
  | groupRefused => exact absurd State.cause_refused hc
  | @inGroup s t s₁ f hn hv hk hcost _ ih =>
    obtain ⟨p, rest, hr, herr, hbegins, hf⟩ := ih hc
    obtain ⟨ts, hs, rfl, hahead⟩ := State.next?_ahead hn
    refine ⟨t :: p, rest, by rw [hs]; exact congrArg _ hr, herr, .inGroup hk hbegins, fun budget' hb rest' hh => ?_⟩
    obtain ⟨f', hf', he⟩ := hf budget' hb rest' hh
    exact ⟨f', .inGroup (hahead (p ++ rest')) hv hk (Nat.le_trans hcost hb) hf', he⟩
  | @unclosed s t s₁ e s₂ hn hv hk hcost hr hclose =>
    obtain ⟨u, ⟨hu, hline, hread⟩, hd⟩ := hr.ahead_makes
    obtain ⟨ts, hs, rfl, hahead⟩ := State.next?_ahead hn
    have herr : ((s₂.restore s.depth).failHere .expectedClosingParen).error =
        errorAt .expectedClosingParen (lineBehind s.lastLine (t :: u)) s₂.rest := by
      rw [State.error_failHere]
      exact congrArg (errorAt .expectedClosingParen · s₂.rest) hline
    have hcause := (congrArg ParseError.cause herr).trans (cause_errorAt _ _ _)
    refine ⟨t :: u, s₂.rest, by rw [hs]; exact congrArg _ hu, by rw [hcause]; exact herr, by rw [hcause]; exact .unclosed hk hd,
      fun budget' hb rest' hh => ?_⟩
    -- what stands behind the expression is no closing parenthesis whatever follows that
    have hclose' : ((s₂.withRest rest').restore s.depth).closingParen? = none := State.closingParen?_withRest hclose hh
    refine ⟨_, .unclosed (hahead (u ++ rest')) hv hk (Nat.le_trans hcost hb) (hread budget' hb rest' hh) hclose', ?_⟩
    rw [State.error_failHere, State.error_failHere]
    exact errorAt_congr hh
  | linkRefused => exact absurd State.cause_refused hc
  | @right l left s op t s₁ f hl hcost _ ih =>
    obtain ⟨p, rest, hr, herr, hbegins, hf⟩ := ih hc
    obtain ⟨⟨hk, ho⟩, ts, hs, rfl, hahead⟩ := State.linkOp?_ahead hl
    refine ⟨t :: p, rest, by rw [hs]; exact congrArg _ hr, herr, fun u hu => ?_, fun budget' hb rest' hh => ?_⟩
    · exact .link hu (mem_operators_iff.2 ⟨rfl, ho⟩) hk (by rw [operandRule_eq]; exact hbegins)
    · obtain ⟨f', hf', he⟩ := hf budget' hb rest' hh
      exact ⟨f', .right (hahead (p ++ rest')) (Nat.le_trans hcost hb) hf', he⟩
  | @link l left s op t s₁ right s₂ f hl hcost hr _ ih =>
    obtain ⟨u, ⟨hu, hline, hread⟩, hd⟩ := hr.ahead_makes
    obtain ⟨p, rest, hp, herr, hbegins, hf⟩ := ih hc
    obtain ⟨⟨hk, ho⟩, ts, hs, rfl, hahead⟩ := State.linkOp?_ahead hl
    refine ⟨t :: (u ++ p), rest, ?_, ?_, fun v hv => ?_, fun budget' hb rest' hh => ?_⟩
    · rw [hs, show ts = u ++ s₂.rest from hu, hp]; simp
    · rw [← List.cons_append, lineBehind_append]
      rw [hline] at herr
      exact herr
    · have hlink : Derives (.layer l) (v ++ t :: u) (.binary left op t right) :=
        .link hv (mem_operators_iff.2 ⟨rfl, ho⟩) hk (by rw [operandRule_eq]; exact hd)
      have := hbegins _ hlink
      rwa [List.append_assoc, List.cons_append] at this
    · obtain ⟨f', hf', he⟩ := hf budget' hb rest' hh
      have hright := hread budget' hb (p ++ rest') (by rw [hp]; exact head?_append_congr hh)
      rw [List.cons_append, List.append_assoc]
      exact ⟨f', .link (hahead (u ++ (p ++ rest'))) (Nat.le_trans hcost hb) hright hf', he⟩

end

/-! ## Syntax errors of a whole list -/

section
variable {budget : Nat} {tokens : List Token} {err : ParseError}

/-- **A list is refused** when the rule of expressions fails, or reads an expression and stops in front of something else
than the end. -/
theorem ofTokens_eq_error_iff : Expr.ofTokens budget tokens = .error err ↔
    (∃ f, Fails budget (.rule .expression) (State.start tokens) f ∧ f.error = err) ∨
    ∃ e s, Reads budget (.rule .expression) (State.start tokens) e s ∧ ¬ AtEnd s.rest ∧
      (s.failHere .unexpectedTrailingTokens).error = err := by
  rw [ofTokens_eq_error_iff_whole, whole_eq]
  rcases reads_or_fails budget (.rule .expression) (State.start tokens) with ⟨e, s, hr⟩ | ⟨f, hf⟩
  · rw [hr.run]
    simp only [Except.bind]
    constructor
    · rintro ⟨f, hf, he⟩
      split at hf
      · cases hf
      · next t s₁ hn =>
        split at hf
        · cases hf
        · next hk =>
          cases hf
          exact .inr ⟨e, s, hr, fun hend => hk (atEnd_iff_next?.1 hend t s₁ hn), he⟩
    · rintro (⟨f, hf, -⟩ | ⟨e', s', hr', hend, he⟩)
      · cases hr.run.symm.trans hf.run
      · obtain ⟨-, rfl⟩ := hr.unique hr'
        refine ⟨_, ?_, he⟩
        split
        · next hn => exact absurd (atEnd_iff_next?.2 fun t s₁ h => by rw [hn] at h; cases h) hend
        · next t s₁ hn =>
          refine if_neg fun hk => hend (atEnd_iff_next?.2 fun t' s' h => ?_)
          rw [hn] at h
          cases h
          exact hk
  · rw [hf.run]
    constructor
    · rintro ⟨f', hf', he⟩
      cases hf'
      exact .inl ⟨f, hf, he⟩
    · rintro (⟨f', hf', he⟩ | ⟨e, s, hr, -⟩)
      · cases hf.run.symm.trans hf'.run
        exact ⟨f, rfl, he⟩
      · cases hf.run.symm.trans hr.run

/-- What the tokens in front of a syntax error are: the beginning of an expression, or a whole one. -/
def Begun (p : List Token) (c : ParseError.Cause) : Prop :=
  Unfinished (.layer .equality) p c ∨ (c = .unexpectedTrailingTokens ∧ ∃ e, Derives (.layer .equality) p e)

theorem Begun.completes {p : List Token} {c : ParseError.Cause} (h : Begun p c) :
    ∃ v e, Derives (.layer .equality) (p ++ v) e := by
  rcases h with h | ⟨-, e, hd⟩
  · exact h.completes
  · exact ⟨[], e, by rw [List.append_nil]; exact hd⟩

theorem Begun.cause_eq {p : List Token} {c : ParseError.Cause} (h : Begun p c) :
    (c = .expectedExpression ↔ AwaitsOperand p) ∧
    (¬ AwaitsOperand p → c = if 0 < openBehind 0 p then .expectedClosingParen else .unexpectedTrailingTokens) := by
  rcases h with h | ⟨rfl, e, hd⟩
  · rcases h.lacks 0 with ⟨rfl, ha⟩ | ⟨rfl, ha, hopen⟩
    · exact ⟨⟨fun _ => ha, fun _ => rfl⟩, fun hno => absurd ha hno⟩
    · exact ⟨⟨fun h => (by cases h), fun h => absurd h ha⟩, fun _ => (if_pos hopen).symm⟩
  · refine ⟨⟨fun h => (by cases h), fun h => absurd h hd.not_awaitsOperand⟩, fun _ => ?_⟩
    rw [hd.openBehind_eq, if_neg (Nat.lt_irrefl 0)]

/-- **A syntax error looks at no token behind the one that it is at**, which those before it have led to. -/
theorem ofTokens_error_ahead (h : Expr.ofTokens budget tokens = .error err) (hc : err.cause ≠ .nestingTooDeep) :
    ∃ p rest, tokens = p ++ rest ∧ err = errorAt err.cause (lineBehind 1 p) rest ∧ Begun p err.cause ∧
      ∀ budget' ≥ budget, ∀ rest' : List Token, rest'.head? = rest.head? →
        Expr.ofTokens budget' (p ++ rest') = .error err := by
  rcases ofTokens_eq_error_iff.1 h with ⟨f, hf, rfl⟩ | ⟨e, s, hr, hend, rfl⟩
  · obtain ⟨p, rest, hp, herr, hbegins, hf'⟩ := hf.ahead hc
    refine ⟨p, rest, hp, herr, .inl hbegins, fun budget' hb rest' hh => ?_⟩
    obtain ⟨f', hf', he⟩ := hf' budget' hb rest' hh
    exact ofTokens_eq_error_iff.2 (.inl ⟨f', hf', he⟩)
  · obtain ⟨u, ⟨hu, hline, hread⟩, hd⟩ := hr.ahead_makes
    have herr : (s.failHere .unexpectedTrailingTokens).error = errorAt .unexpectedTrailingTokens (lineBehind 1 u) s.rest := by
      rw [State.error_failHere]
      exact congrArg (errorAt .unexpectedTrailingTokens · s.rest) hline
    have hcause := (congrArg ParseError.cause herr).trans (cause_errorAt _ _ _)
    refine ⟨u, s.rest, hu, by rw [hcause]; exact herr, .inr ⟨hcause, e, hd⟩, fun budget' hb rest' hh => ?_⟩
    refine ofTokens_eq_error_iff.2 (.inr ⟨e, _, hread budget' hb rest' hh, fun h' => hend fun t ht => h' t ?_, ?_⟩)
    · exact hh.trans ht
    · rw [herr, State.error_failHere, ← errorAt_congr hh]
      exact congrArg (errorAt .unexpectedTrailingTokens · rest') hline

end

theorem lineBehind_eq (line : Nat) (tokens : List Token) :
    lineBehind line tokens = (tokens.getLast?.map Token.line).getD line := by
  induction tokens generalizing line with
  | nil => rfl
  | cons t ts ih =>
    rw [List.getLast?_cons, show lineBehind line (t :: ts) = lineBehind t.line ts from rfl, ih]
    cases ts.getLast? <;> rfl

theorem ofTokens_mono {budget budget' : Nat} {tokens : List Token} {e : Expr} (h : Expr.ofTokens budget tokens = .ok e)
    (hb : budget ≤ budget') : Expr.ofTokens budget' tokens = .ok e := by
  obtain ⟨u, rest, ht, he, hd, hneed⟩ := ofTokens_eq_ok_iff_derives.1 h
  exact ofTokens_eq_ok_iff_derives.2 ⟨u, rest, ht, he, hd, Nat.le_trans hneed hb⟩

theorem ofTokens_of_derives {budget : Nat} {u : List Token} {e : Expr} (h : Derives (.layer .equality) u e)
    (hb : 4 * u.length ≤ budget) : Expr.ofTokens budget u = .ok e :=
  ofTokens_eq_ok_iff_derives.2
    ⟨u, [], (List.append_nil u).symm, fun _ ht => (by cases ht), h, Nat.le_trans h.need_le hb⟩

/-- **What is lacking does not stand where the error is.** -/
theorem ofTokens_error_lacking {budget : Nat} {tokens : List Token} {err : ParseError}
    (h : Expr.ofTokens budget tokens = .error err) (hc : err.cause ≠ .nestingTooDeep) :
    ∃ p rest, tokens = p ++ rest ∧ err = errorAt err.cause (lineBehind 1 p) rest ∧
      ∀ t, rest.head? = some t → ¬ Supplies err.cause [t] := by
  obtain ⟨p, rest, htokens, herr, hbegun, hahead⟩ := ofTokens_error_ahead h hc
  refine ⟨p, rest, htokens, herr, fun t ht hsupplies => ?_⟩
  -- with it the tokens up to there would go on to an expression, which is read under a great enough budget
  rcases hbegun with hbegun | ⟨htrailing, -⟩
  · obtain ⟨v, e, hd⟩ := hbegun.goes_on hsupplies
    rw [List.append_assoc] at hd
    have hok := ofTokens_of_derives hd (Nat.le_max_right budget _)
    rw [hahead _ (Nat.le_max_left budget _) ([t] ++ v) ht.symm] at hok
    cases hok
  · rw [htrailing] at hsupplies
    exact hsupplies

/-- **A syntax error is reported at the first token that no expression goes on with.**  The tokens before it go on to a list
that is accepted, with it they go on to none, and what stands behind it is not looked at.  An operand is said to be missing
exactly where one is awaited; otherwise it is a closing parenthesis if one is open, or the end. -/
theorem ofTokens_error_first_impossible (budget : Nat) (tokens : List Token) (err : ParseError)
    (h : Expr.ofTokens budget tokens = .error err) (hc : err.cause ≠ .nestingTooDeep) :
    ∃ i ≤ tokens.length,
      -- the place
      (∀ t, tokens[i]? = some t → err.location = Location.ofToken t ∧ err.line = t.line) ∧
      (i = tokens.length → err.location = .atEnd ∧ err.line = (tokens.getLast?.map Token.line).getD 1) ∧
      -- what stands before it can be completed, but not with it
      (∃ v e, ∀ b, 4 * (tokens.take i ++ v).length ≤ b → Expr.ofTokens b (tokens.take i ++ v) = .ok e) ∧
      (i < tokens.length → ∀ v e, ¬ Derives (.layer .equality) (tokens.take (i + 1) ++ v) e ∧
        ∀ b, Expr.ofTokens b (tokens.take (i + 1) ++ v) ≠ .ok e) ∧
      (i = tokens.length → ∀ e, ¬ Derives (.layer .equality) tokens e ∧ ∀ b, Expr.ofTokens b tokens ≠ .ok e) ∧
      -- what stands behind it
      (i < tokens.length → ∀ tokens', tokens'.take (i + 1) = tokens.take (i + 1) →
        Expr.ofTokens budget tokens' = .error err) ∧
      -- the cause
      (err.cause = .expectedExpression ↔ AwaitsOperand (tokens.take i)) ∧
      (¬ AwaitsOperand (tokens.take i) →
        err.cause = if 0 < openBehind 0 (tokens.take i) then .expectedClosingParen else .unexpectedTrailingTokens) := by
  obtain ⟨p, rest, rfl, herr, hbegun, hahead⟩ := ofTokens_error_ahead h hc
  -- whatever has the same next token is refused under every greater budget, so under every budget
  have hrefused : ∀ rest' e, rest'.head? = rest.head? → ∀ b, Expr.ofTokens b (p ++ rest') ≠ .ok e := by
    intro rest' e hh b hok
    have := hahead _ (Nat.le_max_left budget b) rest' hh
    rw [ofTokens_mono hok (Nat.le_max_right budget b)] at this
    cases this
  have hnone : ∀ rest' e, rest'.head? = rest.head? →
      ¬ Derives (.layer .equality) (p ++ rest') e ∧ ∀ b, Expr.ofTokens b (p ++ rest') ≠ .ok e := fun rest' e hh =>
    ⟨fun hd => hrefused rest' e hh _ (ofTokens_of_derives hd (Nat.le_refl _)), hrefused rest' e hh⟩
  have hcons : p.length < (p ++ rest).length → ∃ t ts, rest = t :: ts := by
    intro hlt
    refine List.exists_cons_of_ne_nil fun h0 => ?_
    rw [h0, List.append_nil] at hlt
    exact Nat.lt_irrefl _ hlt
  rw [lineBehind_eq] at herr
  refine ⟨p.length, by simp, ?_, ?_, ?_, ?_, fun _ e => hnone rest e rfl, ?_, ?_⟩
  · intro t ht
    rw [List.getElem?_append_right (Nat.le_refl _), Nat.sub_self] at ht
    obtain ⟨ts, rfl⟩ := List.head?_eq_some_iff.1 (List.head?_eq_getElem?.trans ht)
    rw [herr]
    exact ⟨rfl, rfl⟩
  · intro hlen
    obtain rfl : rest = [] := List.length_eq_zero_iff.1 (by rw [List.length_append] at hlen; omega)
    rw [herr, List.append_nil]
    exact ⟨rfl, rfl⟩
  · obtain ⟨v, e, hd⟩ := hbegun.completes
    rw [List.take_left]
    exact ⟨v, e, fun b hb => ofTokens_of_derives hd hb⟩
  · intro hlt v e
    obtain ⟨t, ts, rfl⟩ := hcons hlt
    rw [List.take_length_add_append, List.append_assoc]
    exact hnone _ e rfl
  · intro hlt tokens' htokens
    obtain ⟨t, ts, rfl⟩ := hcons hlt
    rw [List.take_length_add_append] at htokens
    rw [← List.take_append_drop (p.length + 1) tokens', htokens, List.append_assoc]
    exact hahead budget (Nat.le_refl _) _ rfl
  · rw [List.take_left]
    exact hbegun.cause_eq

def unclosedTokens : List Token :=
  [Symbol.token .leftParen 1, ⟨.keyword .nilWord, "nil", none, 1⟩, ⟨.keyword .trueWord, "true", none, 2⟩, Token.eof 2]

def unclosedError : ParseError := ⟨.expectedClosingParen, .atLexeme "true", 2⟩

/-- The error is at the third token, so what stands behind that does not matter. -/
theorem ofTokens_unclosedTokens : Expr.ofTokens 4 unclosedTokens = .error unclosedError ∧
    unclosedError.cause ≠ .nestingTooDeep ∧ ∀ rest, Expr.ofTokens 4 (unclosedTokens.take 3 ++ rest) = .error unclosedError := by
  have herror : Expr.ofTokens 4 unclosedTokens = .error unclosedError := by cbv
  have hcause : unclosedError.cause ≠ .nestingTooDeep := by decide
  obtain ⟨i, hi, hplace, hend, -, -, -, hbehind, -⟩ := ofTokens_error_first_impossible 4 unclosedTokens unclosedError herror hcause
  refine ⟨herror, hcause, fun rest => ?_⟩
  have hi : i ≤ 4 := hi
  obtain rfl | rfl | rfl | rfl | rfl : i = 0 ∨ i = 1 ∨ i = 2 ∨ i = 3 ∨ i = 4 := by omega
  · exact absurd (hplace _ rfl).1 (by decide)
  · exact absurd (hplace _ rfl).1 (by decide)
  · exact hbehind (by decide) _ rfl
  · exact absurd (hplace _ rfl).1 (by decide)
  · exact absurd (hend rfl).1 (by decide)

end Parsing
end LoxExpr
