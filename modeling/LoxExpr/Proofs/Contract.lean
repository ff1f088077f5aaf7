import LoxExpr.Proofs.Budgets
/-!
# Contract: what every rule keeps, in every state

A rule may be begun in any state whose depth is within the budget.  Where it comes to a tree it has taken at least one
token and no closing one, gives back what it was charged, and stops only where none of its own operators and no tighter one
is next: a chain goes on as long as it can, and its operands have stopped before it.  Nowhere on the way, to a tree, to an
error or to an overflow, is the depth beyond the budget (`read_spec`).

Begun at depth zero no rule overflows, but here the depth may be any: a few units below the greatest word, and with that as
the budget, a sum may be no word.  So nothing is said here by way of the sums, and all of it holds whatever an overflow does.
-/
namespace LoxExpr
namespace Parsing

open Grammar

section
variable {o : Overflow} {budget n cost : Nat} {task : Task} {s s' s'' s₁ : State} {t : Token} {rest : List Token}

/-! ## Where a rule stops -/

theorem rank_layer (l : Layer) : (Rule.layer l).rank = (operandRule l).rank + 1 := by
  cases l <;> rfl

theorem eq_of_rank_layer_eq {l l' : Layer} (h : (Rule.layer l).rank = (Rule.layer l').rank) : l = l' := by
  cases l <;> cases l' <;> first | rfl | cases h

/-- No layer is as tight as the prefix operators. -/
theorem stopsAt_of_rank_le_one {r : Rule} (h : r.rank ≤ 1) (rest : List Token) : StopsAt r rest := by
  intro t _ op _
  have hrank : (Rule.layer op.layer).rank = op.layer.rank + 2 := rfl
  omega

/-- **A layer stops where its operands do, once none of its own operators is next.** -/
theorem stopsAt_layer_iff {l : Layer} :
    StopsAt (.layer l) s.rest ↔ StopsAt (operandRule l) s.rest ∧ s.linkOp? l = none := by
  refine ⟨fun h => ⟨h.operand, linkOp?_of_stopsAt h⟩, fun ⟨h, hl⟩ t ht op hk => ?_⟩
  have hlt := h t ht op hk
  by_cases hop : op.layer = l
  · obtain ⟨ts, hs⟩ := List.head?_eq_some_iff.1 ht
    have hlink := State.linkOp?_eq_some_iff.2 ⟨State.next?_of_rest hs, hk, hop⟩
    simp [hl] at hlink
  · have hne : (Rule.layer l).rank ≠ (Rule.layer op.layer).rank := fun heq => hop (eq_of_rank_layer_eq heq).symm
    rw [rank_layer l] at hne ⊢
    omega

theorem ofKind?_eq_none_of_stopsAt (h : StopsAt .expression rest) : ∀ t ∈ rest.head?, BinaryOp.ofKind? t.kind = none := by
  intro t ht
  refine Option.eq_none_iff_forall_ne_some.2 fun op hop => ?_
  have hlt := h t ht op (BinaryOp.ofKind?_eq_some_iff.1 hop)
  cases op <;> exact absurd hlt (by decide)

/-! ## What is taken -/

namespace State

/-- **Some tokens are taken from one state to another**, none of them a closing one, and the last line is that of the last of
them. -/
def Takes (s s' : State) : Prop :=
  ∃ u, s.rest = u ++ s'.rest ∧ (∀ x ∈ u, x.kind ≠ .eof) ∧ s'.lastLine = lineBehind s.lastLine u

theorem takes_of_eq (hrest : s'.rest = s.rest) (hline : s'.lastLine = s.lastLine) : s.Takes s' :=
  ⟨[], hrest.symm, fun _ hx => absurd hx List.not_mem_nil, hline⟩

theorem takes_of_next? (hn : s.next? = some (t, s₁)) (hk : t.kind ≠ .eof) : s.Takes s₁ := by
  obtain ⟨ts, hs, rfl⟩ := next?_eq_some_iff.1 hn
  exact ⟨[t], hs, by simpa using hk, rfl⟩

theorem Takes.trans (h : s.Takes s') (h' : s'.Takes s'') : s.Takes s'' := by
  obtain ⟨u, hu, hne, hline⟩ := h
  obtain ⟨v, hv, hne', hline'⟩ := h'
  refine ⟨u ++ v, by rw [hu, hv, List.append_assoc], fun x hx => ?_, by rw [lineBehind_append, hline', hline]⟩
  exact (List.mem_append.1 hx).elim (hne x) (hne' x)

theorem Takes.length_le (h : s.Takes s') : s'.rest.length ≤ s.rest.length := by
  obtain ⟨u, hu, -⟩ := h
  rw [hu, List.length_append]
  exact Nat.le_add_left _ _

theorem Takes.exists_last (h : s.Takes s') (hlt : s'.rest.length < s.rest.length) :
    ∃ u t, s.rest = u ++ t :: s'.rest ∧ (∀ x ∈ u ++ [t], x.kind ≠ .eof) ∧ s'.lastLine = t.line := by
  obtain ⟨v, hv, hne, hline⟩ := h
  have hv₀ : v ≠ [] := by
    rintro rfl
    simp [hv] at hlt
  obtain ⟨u, t, rfl⟩ := List.eq_nil_or_concat v |>.resolve_left hv₀
  rw [List.concat_eq_append] at hv hne hline
  refine ⟨u, t, by simpa using hv, hne, ?_⟩
  rw [hline, lineBehind_append]
  rfl

/-- From the state in front of a symbol to one that differs from the state behind it in what is charged. -/
theorem takes_of_charge {y : Symbol} (hn : s.next? = some (t, s₁)) (hk : t.kind = .symbol y) (hrest : s'.rest = s₁.rest)
    (hline : s'.lastLine = s₁.lastLine) : s.Takes s' ∧ s'.rest.length < s.rest.length := by
  refine ⟨(takes_of_next? hn (by rw [hk]; nofun)).trans (takes_of_eq hrest hline), ?_⟩
  rw [hrest]
  exact lt_of_next? hn

/-! ## How deep it is -/

/-- The depth is within the budget, and the greatest one so far is no more than the budget or `n`. -/
def Bounded (budget n : Nat) (s : State) : Prop := s.depth ≤ budget ∧ s.peak ≤ max n budget

theorem Bounded.next (h : s.Bounded budget n) (hn : s.next? = some (t, s₁)) : s₁.Bounded budget n := by
  obtain ⟨ts, -, rfl⟩ := next?_eq_some_iff.1 hn
  exact h

end State

/-- **A result that satisfies `P`, or a failure within the bounds**; it is no overflow if there are none. -/
def Keeps {α : Type} (o : Overflow) (budget n : Nat) (P : α → Prop) : Except Failure α → Prop
  | .ok a => P a
  | .error f => f.state.Bounded budget n ∧ ∀ t x, f = .overflowed t x → o = .stops

section
variable {α β : Type} {P : α → Prop} {Q : β → Prop} {x : Except Failure α}

theorem Keeps.bind {k : α → Except Failure β} (h : Keeps o budget n P x) (hk : ∀ a, P a → Keeps o budget n Q (k a)) :
    Keeps o budget n Q (x.bind k) := by
  cases x with
  | error f => exact h
  | ok a => exact hk a h

theorem Keeps.map {g : α → β} (h : Keeps o budget n P x) (hg : ∀ a, P a → Q (g a)) : Keeps o budget n Q (x.map g) := by
  cases x with
  | error f => exact h
  | ok a => exact hg a h

theorem Keeps.mono {P' : α → Prop} (h : Keeps o budget n P x) (hp : ∀ a, P a → P' a) : Keeps o budget n P' x := by
  cases x with
  | error f => exact h
  | ok a => exact hp a h

theorem Keeps.of_ok {a : α} (h : Keeps o budget n P x) (hx : x = .ok a) : P a := by
  rw [hx] at h; exact h

theorem Keeps.of_error {f : Failure} (h : Keeps o budget n P x) (hx : x = .error f) :
    f.state.Bounded budget n ∧ ∀ t x, f = .overflowed t x → o = .stops := by
  rw [hx] at h; exact h

theorem keeps_failHere (hs : s.Bounded budget n) (cause : ParseError.Cause) :
    Keeps o budget n P (.error (s.failHere cause)) := by
  refine ⟨by rw [State.state_failHere]; exact hs, fun t x h => ?_⟩
  unfold State.failHere at h
  split at h <;> cases h

end

/-- **A charge keeps the depth within the budget**, also one that wraps: there is none but under the greatest budget. -/
theorem keeps_descend (hs : s.Bounded budget n) :
    Keeps o budget n (fun s' => s'.1.lastLine = s.lastLine ∧ s'.1.Bounded budget n) (s.descend o budget cost t) := by
  have hpeak {d : Nat} (hd : d ≤ budget) : max s.peak d ≤ max n budget :=
    Nat.max_le.2 ⟨hs.2, Nat.le_trans hd (Nat.le_max_right _ _)⟩
  unfold State.descend
  split
  · exact ⟨hs, nofun⟩
  · next hcheck =>
    split
    · have hsum : s.depth + cost ≤ budget := by omega
      exact ⟨rfl, hsum, hpeak hsum⟩
    · cases o with
      | stops => exact ⟨hs, fun _ _ _ => rfl⟩
      | wraps =>
        have hlt : (s.depth + cost) % (greatestDepth budget + 1) < greatestDepth budget + 1 :=
          Nat.mod_lt _ (Nat.succ_pos _)
        have hwrapped : (s.depth + cost) % (greatestDepth budget + 1) ≤ budget := by omega
        exact ⟨rfl, hwrapped, hpeak hwrapped⟩

/-! ## How a task ends -/

/-- How a task ends that comes to a tree.  A chain stops with its layer, if the operand in front of it has stopped. -/
def Ends : Task → State → State → Prop
  | .rule r, s, s' => s.Takes s' ∧ s'.rest.length < s.rest.length ∧ s'.depth = s.depth ∧ StopsAt r s'.rest
  | .links l _, s, s' => s.Takes s' ∧ (StopsAt (operandRule l) s.rest → StopsAt (.layer l) s'.rest)

theorem keeps_closeGroup {e : Expr} (htakes : s.Takes s') (hlt : s'.rest.length < s.rest.length) (hs : s.Bounded budget n)
    (hs' : s'.Bounded budget n) :
    Keeps o budget n (fun r => Ends (.rule .primary) s r.2 ∧ r.2.Bounded budget n) (closeGroup s (e, s')) := by
  have hback : (s'.restore s.depth).Bounded budget n := ⟨hs.1, hs'.2⟩
  unfold closeGroup
  split
  · next s₃ hc =>
    obtain ⟨t, hn, hk⟩ := State.closingParen?_eq_some_iff.1 hc
    have hlast : (s'.restore s.depth).Takes s₃ := State.takes_of_next? hn (by rw [hk]; nofun)
    have hshorter : s₃.rest.length ≤ s'.rest.length := hlast.length_le
    have hdepth : s₃.depth = (s'.restore s.depth).depth := State.depth_of_next? hn
    exact ⟨⟨htakes.trans hlast, Nat.lt_of_le_of_lt hshorter hlt, hdepth, stopsAt_of_rank_le_one (by decide) _⟩,
      hback.next hn⟩
  · exact keeps_failHere hback _

/-- **Every task keeps to the contract**, whatever an overflow does. -/
theorem run_keeps (task : Task) (s : State) (hs : s.Bounded budget n) :
    Keeps o budget n (fun r => Ends task s r.2 ∧ r.2.Bounded budget n) (run o budget task s) := by
  have h : (∀ r s, s.Bounded budget n →
        Keeps o budget n (fun x => Ends (.rule r) s x.2 ∧ x.2.Bounded budget n) (run o budget (.rule r) s)) ∧
      ∀ l left s, s.Bounded budget n →
        Keeps o budget n (fun x => Ends (.links l left) s x.2 ∧ x.2.Bounded budget n) (run o budget (.links l left) s) := by
    refine readWith.mutual_induct _ _ ?layer ?noPrefix ?withPrefix ?noToken ?literal ?group ?noExpression ?noLink ?link
    case layer =>
      intro s l ihOperand ihLinks hs
      rw [run_layer]
      refine (ihOperand hs).bind ?_
      rintro ⟨left, s₁⟩ ⟨⟨htakes, hlt, -, hstops⟩, hs₁⟩
      refine (ihLinks left s₁ hlt hs₁).map ?_
      rintro ⟨e, s₂⟩ ⟨⟨htakes₂, hstops₂⟩, hs₂⟩
      rw [← operandRule_eq] at hstops
      exact ⟨⟨htakes.trans htakes₂, Nat.lt_of_le_of_lt htakes₂.length_le hlt, rfl, hstops₂ hstops⟩, hs.1, hs₂.2⟩
    case noPrefix =>
      intro s hp ih hs
      rw [run_unary_of_none hp]
      refine (ih hs).mono ?_
      rintro ⟨e, s₁⟩ ⟨⟨htakes, hlt, hdepth, -⟩, hs₁⟩
      exact ⟨⟨htakes, hlt, hdepth, stopsAt_of_rank_le_one (by decide) _⟩, hs₁⟩
    case withPrefix =>
      intro s op t s₁ hp ih hs
      obtain ⟨hn, hk⟩ := State.prefixOp?_eq_some_iff.1 hp
      rw [run_unary_of_some hp]
      refine (keeps_descend (hs.next hn)).bind ?_
      rintro ⟨s₂, hrest⟩ ⟨hline, hs₂⟩
      refine (ih s₂ hrest hs₂).map ?_
      rintro ⟨e, s₃⟩ ⟨⟨htakes₃, hlt₃, -, -⟩, hs₃⟩
      obtain ⟨htakes, hlt⟩ := State.takes_of_charge hn hk hrest hline
      exact ⟨⟨htakes.trans htakes₃, Nat.lt_trans hlt₃ hlt, rfl, stopsAt_of_rank_le_one (by decide) _⟩, hs.1, hs₃.2⟩
    case noToken =>
      intro s hn hs
      rw [run_primary_of_none hn]
      exact keeps_failHere hs _
    case literal =>
      intro s t s₁ hn v hv hs
      rw [run_primary_of_some hn, hv]
      exact ⟨⟨State.takes_of_next? hn (kind_ne_eof_of_literalOf? hv), State.lt_of_next? hn, State.depth_of_next? hn,
        stopsAt_of_rank_le_one (by decide) _⟩, hs.next hn⟩
    case group =>
      intro s t s₁ hn hv hk ih hs
      rw [run_primary_of_some hn, hv]
      simp only [hk, if_true]
      refine (keeps_descend (hs.next hn)).bind ?_
      rintro ⟨s₂, hrest⟩ ⟨hline, hs₂⟩
      refine (ih s₂ hrest hs₂).bind ?_
      rintro ⟨e, s₃⟩ ⟨⟨htakes₃, hlt₃, -, -⟩, hs₃⟩
      obtain ⟨htakes, hlt⟩ := State.takes_of_charge hn hk hrest hline
      exact keeps_closeGroup (htakes.trans htakes₃) (Nat.lt_trans hlt₃ hlt) hs hs₃
    case noExpression =>
      intro s t s₁ hn hv hk hs
      rw [run_primary_of_some hn, hv]
      simp only [hk, if_false]
      exact ⟨hs.next hn, fun _ _ h => by cases h⟩
    case noLink =>
      intro l left s hl hs
      rw [run_links_of_none hl]
      exact ⟨⟨State.takes_of_eq rfl rfl, fun hstops => stopsAt_layer_iff.2 ⟨hstops, hl⟩⟩, hs⟩
    case link =>
      intro l left s op t s₁ hl ihRight ihLinks hs
      obtain ⟨hn, hk, -⟩ := State.linkOp?_eq_some_iff.1 hl
      rw [run_links_of_some hl]
      refine (keeps_descend (hs.next hn)).bind ?_
      rintro ⟨s₂, hrest⟩ ⟨hline, hs₂⟩
      refine (ihRight s₂ hrest hs₂).bind ?_
      rintro ⟨right, s₃⟩ ⟨⟨htakes₃, hlt₃, -, hstops₃⟩, hs₃⟩
      refine (ihLinks s₂ hrest right s₃ hlt₃ hs₃).mono ?_
      rintro ⟨e, s₄⟩ ⟨⟨htakes₄, hstops₄⟩, hs₄⟩
      obtain ⟨htakes, -⟩ := State.takes_of_charge hn hk hrest hline
      rw [← operandRule_eq] at hstops₃
      exact ⟨⟨(htakes.trans htakes₃).trans htakes₄, fun _ => hstops₄ hstops₃⟩, hs₄⟩
  cases task with
  | rule r => exact h.1 r s hs
  | links l left => exact h.2 l left s hs

/-! ### On the way -/

theorem Calls.bounded {a b : Task × State} (h : Calls o budget a b) (ha : a.2.Bounded budget n) : b.2.Bounded budget n := by
  cases h with
  | operand => exact ha
  | links hr => exact ((run_keeps _ _ ha).of_ok hr).2
  | primary => exact ha
  | behindPrefix hp hd =>
    have hs₁ := ha.next (State.prefixOp?_eq_some_iff.1 hp).1
    exact ((keeps_descend hs₁).of_ok hd).2
  | inGroup hn _ _ hd => exact ((keeps_descend (ha.next hn)).of_ok hd).2
  | right hl hd =>
    have hs₁ := ha.next (State.linkOp?_eq_some_iff.1 hl).1
    exact ((keeps_descend hs₁).of_ok hd).2
  | moreLinks hl hd hr =>
    have hs₁ := ha.next (State.linkOp?_eq_some_iff.1 hl).1
    exact ((run_keeps _ _ ((keeps_descend hs₁).of_ok hd).2).of_ok hr).2

theorem bounded_of_calls {a b : Task × State} (h : Relation.ReflTransGen (Calls o budget) a b)
    (ha : a.2.Bounded budget n) : b.2.Bounded budget n := by
  induction h with
  | refl => exact ha
  | tail _ hc ih => exact hc.bounded ih

theorem bounded_endState (hs : s.Bounded budget n) : (endState o budget task s).Bounded budget n := by
  have hkeeps := run_keeps (o := o) task s hs
  unfold endState
  split
  · next h => exact (hkeeps.of_ok h).2
  · next h => exact (hkeeps.of_error h).1

/-- **Wherever a task comes to, the depth is within the budget.** -/
theorem ComesTo.bounded {x : State} (h : ComesTo o budget task s x) (hs : s.Bounded budget n) : x.Bounded budget n := by
  cases h with
  | begins hc => exact bounded_of_calls hc hs
  | ends hc => exact bounded_endState (bounded_of_calls hc hs)

end

/-! ## Every rule in every state -/

/-- **The contract of a rule**, begun in any state whose depth is within the budget, whatever an overflow does.  Where it comes
to a tree, it has taken some tokens, none of them a closing one, and the last line is that of the last of them; the depth is
what it was; and what is next is no binary operator of the rule's own layer or of a tighter one, and for a whole expression
none at all.  Where it does not, it has stopped at an error, or at an overflow if that stops it: then the charge for the last
token taken leads beyond the greatest depth, which only the greatest budget lets happen.  Wherever it ends, the depth was
within the budget at every moment: in each state that it or a task within it began or ended in, and by the account of the
greatest depth that the state keeps. -/
theorem read_spec (o : Overflow) (budget : Nat) (r : Rule) (s : State) (hs : s.depth ≤ budget) :
    (∀ e s', run o budget (.rule r) s = .ok (e, s') →
      (∃ u t, s.rest = u ++ t :: s'.rest ∧ (∀ x ∈ u ++ [t], x.kind ≠ .eof) ∧ s'.lastLine = t.line) ∧
      s'.depth = s.depth ∧ StopsAt r s'.rest ∧
      (r = .expression → ∀ t ∈ s'.rest.head?, BinaryOp.ofKind? t.kind = none) ∧ ComesTo o budget (.rule r) s s') ∧
    (∀ f, run o budget (.rule r) s = .error f → ComesTo o budget (.rule r) s f.state) ∧
    (∀ t x, run o budget (.rule r) s = .error (.overflowed t x) → o = .stops ∧ greatestWord ≤ budget ∧
      (∃ p, s.rest = p ++ t :: x.rest) ∧ ∃ cost ≤ groupCost, greatestDepth budget < x.depth + cost) ∧
    ∀ x, ComesTo o budget (.rule r) s x → x.depth ≤ budget ∧ x.peak ≤ max s.peak budget := by
  have hbounded : s.Bounded budget s.peak := ⟨hs, Nat.le_max_left _ _⟩
  have hkeeps := run_keeps (o := o) (.rule r) s hbounded
  refine ⟨fun e s' h => ?_, fun f h => ?_, fun t x h => ?_, fun x hx => hx.bounded hbounded⟩
  · obtain ⟨⟨htakes, hlt, hdepth, hstops⟩, -⟩ := hkeeps.of_ok h
    refine ⟨htakes.exists_last hlt, hdepth, hstops, ?_, ?_⟩
    · rintro rfl
      exact ofKind?_eq_none_of_stopsAt hstops
    · simpa only [endState, h] using comesTo_endState o budget (.rule r) s
  · simpa only [endState, h] using comesTo_endState o budget (.rule r) s
  · obtain rfl := (hkeeps.of_error h).2 t x rfl
    obtain ⟨hword, cost, hcost, hdepth, -, p, hp, -⟩ := (run_eq_error_iff.1 h).overflowed
    exact ⟨rfl, hword, ⟨p, hp⟩, cost, hcost, hdepth⟩

/-- A negated group, and a comparison behind it. -/
def negatedGroup : List Token :=
  [UnaryOp.token .negate 3, Symbol.token .leftParen 3, ⟨.keyword .trueWord, "true", none, 4⟩, Symbol.token .rightParen 5,
    BinaryOp.token .less 5, ⟨.keyword .nilWord, "nil", none, 6⟩]

/-- Two units deep already, a sum takes the negated group, which uses up all of seven units, and stops at the comparison. -/
theorem read_negatedGroup : (2 ≤ 7 ∧ ∃ e, run .stops 7 (.rule (.layer .term)) ⟨negatedGroup, 3, 2, 2, 2⟩ =
      .ok (e, ⟨negatedGroup.drop 4, 5, 2, 7, 7⟩)) ∧
    StopsAt (.layer .term) (negatedGroup.drop 4) ∧
    ∀ x, ComesTo .stops 7 (.rule (.layer .term)) ⟨negatedGroup, 3, 2, 2, 2⟩ x → x.depth ≤ 7 := by
  have hrun : run .stops 7 (.rule (.layer .term)) ⟨negatedGroup, 3, 2, 2, 2⟩ =
      .ok (.unaryAt .negate (.group (.literal (.bool true))) 3, ⟨negatedGroup.drop 4, 5, 2, 7, 7⟩) := by cbv
  obtain ⟨hok, -, -, hdepth⟩ := read_spec .stops 7 (.layer .term) ⟨negatedGroup, 3, 2, 2, 2⟩ (by decide)
  obtain ⟨-, -, hstops, -⟩ := hok _ _ hrun
  exact ⟨⟨by decide, _, hrun⟩, hstops, fun x hx => (hdepth x hx).1⟩

/-- As deep as the words go, the negation is let through by the greatest budget, and its unit is no depth any more. -/
example : run .stops greatestWord (.rule .unary) ⟨negatedGroup, 3, greatestWord, greatestWord, 0⟩ =
    .error (.overflowed (UnaryOp.token .negate 3) ⟨negatedGroup.drop 1, 3, greatestWord, greatestWord, greatestWord + 1⟩) := by
  cbv

/-- Where the sum wraps, the group is read four units deep, and the depth is given back as it was. -/
example : run .wraps greatestWord (.rule .unary) ⟨negatedGroup, 3, greatestWord, greatestWord, 0⟩ =
    .ok (.unaryAt .negate (.group (.literal (.bool true))) 3,
      ⟨negatedGroup.drop 4, 5, greatestWord, greatestWord, greatestWord + 1⟩) := by
  cbv

end Parsing
end LoxExpr
