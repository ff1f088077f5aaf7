import LoxExpr.Proofs.Reading
import Mathlib.Logic.Relation
/-!
# Moves: what parsing does to its state

Whatever a task reads, it does only four things to the state if an overflow stops it: it takes a token, takes a symbol and is
charged for it, is refused that charge, or gives charges back (`State.Moves`).  Every task leads along a path of such moves,
with a tree (`Reads.path`) and with a failure (`Fails.path`), and so does every task that it has carried out on the way
(`Calls`).  A rule gives back all that it was charged, no more and no less (`Reads.depth_eq`).

So what the four moves keep, a whole parse keeps (`State.Path.keeps`): the tokens only get fewer, and the depth with four
units for every token left, the closing token set aside, does not grow.
-/
namespace LoxExpr
namespace Parsing

/-! ## Moves -/

namespace State

/-- **What is done to a state in one move.**  A charge is asked for a symbol, and it is no more than a group costs. -/
inductive Moves (budget : Nat) : State → State → Prop
  | take {s t s₁} : s.next? = some (t, s₁) → Moves budget s s₁
  | charge {s t s₁ y cost} : s.next? = some (t, s₁) → t.kind = .symbol y → cost ≤ groupCost → s₁.depth + cost ≤ budget →
      Moves budget s (s₁.charged cost)
  | refuse {s t s₁ y cost} : s.next? = some (t, s₁) → t.kind = .symbol y → cost ≤ groupCost → ¬ s₁.depth + cost ≤ budget →
      Moves budget s (s₁.notCharged cost)
  | restore {s depth} : depth ≤ s.depth → Moves budget s (s.restore depth)

/-- Any number of moves. -/
def Path (budget : Nat) : State → State → Prop := Relation.ReflTransGen (Moves budget)

section
variable {budget n : Nat} {s s' s₁ : State} {t : Token}

/-- **What one move keeps, a path keeps.** -/
theorem Path.keeps {I : State → Prop} (hI : ∀ s s', Moves budget s s' → I s → I s') (h : Path budget s s') (hs : I s) :
    I s' := by
  induction h with
  | refl => exact hs
  | tail _ hm ih => exact hI _ _ hm ih

theorem depth_of_next? (h : s.next? = some (t, s₁)) : s₁.depth = s.depth := by
  obtain ⟨ts, -, rfl⟩ := next?_eq_some_iff.1 h
  rfl

theorem state_failHere (s : State) (c : ParseError.Cause) : (s.failHere c).state = s := by
  unfold failHere; split <;> rfl

/-! ### Tokens left -/

theorem Moves.length_le (h : Moves budget s s') : s'.rest.length ≤ s.rest.length := by
  cases h with
  | take hn => exact Nat.le_of_lt (lt_of_next? hn)
  | charge hn =>
    have hlt := lt_of_next? hn
    exact Nat.le_of_lt hlt
  | refuse hn =>
    have hlt := lt_of_next? hn
    exact Nat.le_of_lt hlt
  | restore => exact Nat.le_refl _

theorem Path.length_le (h : Path budget s s') : s'.rest.length ≤ s.rest.length :=
  h.keeps (I := fun x => x.rest.length ≤ s.rest.length) (fun _ _ hm hx => Nat.le_trans hm.length_le hx) (Nat.le_refl _)

end

/-! ### Every charge is paid for by a token -/

/-- How many tokens stand there beside closing tokens, for which nothing is ever charged. -/
def chargeable (ts : List Token) : Nat := ts.countP fun t => t.kind ≠ .eof

theorem chargeable_cons_symbol {t : Token} {y : Symbol} (h : t.kind = .symbol y) (ts : List Token) :
    chargeable (t :: ts) = chargeable ts + 1 :=
  List.countP_cons_of_pos (by simp [h])

theorem chargeable_le_cons (t : Token) (ts : List Token) : chargeable ts ≤ chargeable (t :: ts) :=
  (List.sublist_cons_self t ts).countP_le

theorem chargeable_le_length (ts : List Token) : chargeable ts ≤ ts.length := List.countP_le_length

/-- **The depth with four units for every token left is at most `n`**, and so was every sum of a depth and a charge. -/
def Pays (n : Nat) (s : State) : Prop := s.depth + 4 * chargeable s.rest ≤ n ∧ s.asked ≤ n

section
variable {budget n cost : Nat} {s s' s₁ : State} {t : Token} {y : Symbol}

theorem Pays.of_next (h : s.Pays n) (hn : s.next? = some (t, s₁)) : s₁.Pays n := by
  obtain ⟨ts, hr, rfl⟩ := next?_eq_some_iff.1 hn
  obtain ⟨hd, ha⟩ := h
  have hle := chargeable_le_cons t ts
  rw [hr] at hd
  exact ⟨by simp only [advance]; omega, ha⟩

/-- A symbol leaves room for a whole group. -/
theorem Pays.of_symbol (h : s.Pays n) (hn : s.next? = some (t, s₁)) (hk : t.kind = .symbol y) :
    s₁.depth + groupCost + 4 * chargeable s₁.rest ≤ n := by
  obtain ⟨ts, hr, rfl⟩ := next?_eq_some_iff.1 hn
  obtain ⟨hd, -⟩ := h
  rw [hr, chargeable_cons_symbol hk] at hd
  simp only [advance, groupCost]
  omega

theorem Moves.pays (h : Moves budget s s') (hs : s.Pays n) : s'.Pays n := by
  cases h with
  | take hn => exact hs.of_next hn
  | charge hn hk hcost _ =>
    have hsum := hs.of_symbol hn hk
    obtain ⟨-, ha⟩ := hs.of_next hn
    exact ⟨by simp only [charged]; omega, Nat.max_le.2 ⟨ha, by omega⟩⟩
  | refuse hn hk hcost _ =>
    have hsum := hs.of_symbol hn hk
    obtain ⟨hd, ha⟩ := hs.of_next hn
    exact ⟨hd, Nat.max_le.2 ⟨ha, by omega⟩⟩
  | restore hd => exact ⟨Nat.le_trans (Nat.add_le_add_right hd _) hs.1, hs.2⟩

theorem Path.pays (h : Path budget s s') (hs : s.Pays n) : s'.Pays n :=
  h.keeps (fun _ _ => Moves.pays) hs

theorem pays_start (tokens : List Token) : (start tokens).Pays (4 * chargeable tokens) :=
  ⟨by simp only [start]; omega, Nat.zero_le _⟩

end
end State

/-! ## Every task leads along a path -/

open State (Moves Path)

section
variable {budget : Nat} {task : Task} {s s' : State} {e : Expr} {f : Failure}

theorem moves_of_prefixOp? {op : UnaryOp} {t : Token} {s₁ : State} (hp : s.prefixOp? = some (op, t, s₁))
    (hb : s₁.depth + operatorCost ≤ budget) : Moves budget s (s₁.charged operatorCost) :=
  have ⟨hn, hk⟩ := State.prefixOp?_eq_some_iff.1 hp
  .charge hn hk (by decide) hb

theorem moves_of_linkOp? {l : Layer} {op : BinaryOp} {t : Token} {s₁ : State} (hl : s.linkOp? l = some (op, t, s₁))
    (hb : s₁.depth + operatorCost ≤ budget) : Moves budget s (s₁.charged operatorCost) :=
  have ⟨hn, hk, _⟩ := State.linkOp?_eq_some_iff.1 hl
  .charge hn hk (by decide) hb

theorem moves_of_opening {t : Token} {s₁ : State} (hn : s.next? = some (t, s₁)) (hk : t.kind = .symbol .leftParen)
    (hb : s₁.depth + groupCost ≤ budget) : Moves budget s (s₁.charged groupCost) :=
  .charge hn hk (Nat.le_refl _) hb

/-- How a task leads from one state to another: a rule gives everything back, and a chain gives nothing back. -/
def Leads (budget : Nat) : Task → State → State → Prop
  | .rule _, s, s' => Path budget s s' ∧ s'.depth = s.depth
  | .links _ _, s, s' => Path budget s s' ∧ s.depth ≤ s'.depth

theorem Reads.leads (h : Reads budget task s e s') : Leads budget task s s' := by
  induction h with
  | layer _ _ ih₁ ih₂ =>
    obtain ⟨h₁, hd₁⟩ := ih₁
    obtain ⟨h₂, hd₂⟩ := ih₂
    exact ⟨(h₁.trans h₂).tail (.restore (hd₁ ▸ hd₂)), rfl⟩
  | noPrefix _ _ ih => exact ih
  | @withPrefix s _ _ s₁ _ s₂ hp hb _ ih =>
    obtain ⟨h, hd⟩ := ih
    have hdepth : s₁.depth = s.depth := State.depth_of_next? (State.prefixOp?_eq_some_iff.1 hp).1
    have hle : s.depth ≤ s₂.depth := by rw [hd, ← hdepth]; exact Nat.le_add_right _ _
    exact ⟨.head (moves_of_prefixOp? hp hb) (h.tail (.restore hle)), rfl⟩
  | literal hn _ => exact ⟨.single (.take hn), State.depth_of_next? hn⟩
  | @group s _ s₁ _ s₂ s₃ hn _ hk hb _ hc ih =>
    obtain ⟨h, hd⟩ := ih
    obtain ⟨t', hn', -⟩ := State.closingParen?_eq_some_iff.1 hc
    have hle : s.depth ≤ s₂.depth := by rw [hd, ← State.depth_of_next? hn]; exact Nat.le_add_right _ _
    have hclosed : s₃.depth = (s₂.restore s.depth).depth := State.depth_of_next? hn'
    exact ⟨.head (moves_of_opening hn hk hb) ((h.tail (.restore hle)).tail (.take hn')), hclosed⟩
  | noLink _ => exact ⟨.refl, Nat.le_refl _⟩
  | @link _ _ s _ _ s₁ _ s₂ _ s₃ hl hb _ _ ih₁ ih₂ =>
    obtain ⟨h₁, hd₁⟩ := ih₁
    obtain ⟨h₂, hd₂⟩ := ih₂
    have hdepth : s₁.depth = s.depth := State.depth_of_next? (State.linkOp?_eq_some_iff.1 hl).1
    refine ⟨.head (moves_of_linkOp? hl hb) (h₁.trans h₂), Nat.le_trans ?_ hd₂⟩
    rw [hd₁, ← hdepth]
    exact Nat.le_add_right _ _

theorem Reads.path (h : Reads budget task s e s') : Path budget s s' := by
  cases task with
  | rule r => exact h.leads.1
  | links l left => exact h.leads.1

/-- **A rule gives back what it was charged.** -/
theorem Reads.depth_eq {r : Rule} (h : Reads budget (.rule r) s e s') : s'.depth = s.depth := h.leads.2

theorem Fails.path (h : Fails budget task s f) : Path budget s f.state := by
  induction h with
  | operand _ ih => exact ih
  | chain hr _ ih => exact hr.path.trans ih
  | noPrefix _ _ ih => exact ih
  | prefixRefused hp hb =>
    obtain ⟨hn, hk⟩ := State.prefixOp?_eq_some_iff.1 hp
    rw [State.state_refused]
    exact .single (.refuse hn hk (by decide) hb)
  | withPrefix hp hb _ ih => exact .head (moves_of_prefixOp? hp hb) ih
  | noToken _ => rw [State.state_failHere]; exact .refl
  | noExpression hn _ _ => exact .single (.take hn)
  | groupRefused hn _ hk hb => rw [State.state_refused]; exact .single (.refuse hn hk (Nat.le_refl _) hb)
  | inGroup hn _ hk hb _ ih => exact .head (moves_of_opening hn hk hb) ih
  | @unclosed s _ s₁ _ s₂ hn _ hk hb hr _ =>
    rw [State.state_failHere]
    have hle : s.depth ≤ s₂.depth := by rw [hr.depth_eq, ← State.depth_of_next? hn]; exact Nat.le_add_right _ _
    exact .head (moves_of_opening hn hk hb) (hr.path.tail (.restore hle))
  | linkRefused hl hb =>
    obtain ⟨hn, hk, -⟩ := State.linkOp?_eq_some_iff.1 hl
    rw [State.state_refused]
    exact .single (.refuse hn hk (by decide) hb)
  | right hl hb _ ih => exact .head (moves_of_linkOp? hl hb) ih
  | link hl hb hr _ ih => exact .head (moves_of_linkOp? hl hb) (hr.path.trans ih)

theorem Reads.length_le (h : Reads budget task s e s') : s'.rest.length ≤ s.rest.length := h.path.length_le

theorem Fails.length_le (h : Fails budget task s f) : f.state.rest.length ≤ s.rest.length := h.path.length_le

end

/-! ## What a task has carried out -/

/-- **A task in a state has another task carried out** in the state that it has come to. -/
inductive Calls (o : Overflow) (budget : Nat) : Task × State → Task × State → Prop
  | operand {l s} : Calls o budget (.rule (.layer l), s) (.rule (Rule.operandOf l), s)
  | links {l s left s₁} : run o budget (.rule (Rule.operandOf l)) s = .ok (left, s₁) →
      Calls o budget (.rule (.layer l), s) (.links l left, s₁)
  | primary {s} : s.prefixOp? = none → Calls o budget (.rule .unary, s) (.rule .primary, s)
  | behindPrefix {s op t s₁ s₂} : s.prefixOp? = some (op, t, s₁) → s₁.descend o budget operatorCost t = .ok s₂ →
      Calls o budget (.rule .unary, s) (.rule .unary, s₂.1)
  | inGroup {s t s₁ s₂} : s.next? = some (t, s₁) → literalOf? t = none → t.kind = .symbol .leftParen →
      s₁.descend o budget groupCost t = .ok s₂ → Calls o budget (.rule .primary, s) (.rule .expression, s₂.1)
  | right {l left s op t s₁ s₂} : s.linkOp? l = some (op, t, s₁) → s₁.descend o budget operatorCost t = .ok s₂ →
      Calls o budget (.links l left, s) (.rule (Rule.operandOf l), s₂.1)
  | moreLinks {l left s op t s₁ s₂ right s₃} : s.linkOp? l = some (op, t, s₁) →
      s₁.descend o budget operatorCost t = .ok s₂ → run o budget (.rule (Rule.operandOf l)) s₂.1 = .ok (right, s₃) →
      Calls o budget (.links l left, s) (.links l (.binary left op t right), s₃)

/-- The state in which a task ends, with a tree or with a failure. -/
def endState (o : Overflow) (budget : Nat) (task : Task) (s : State) : State :=
  match run o budget task s with
  | .ok (_, s') => s'
  | .error f => f.state

/-- **A parse comes to a state**: it begins or ends a task there, or a task that it has carried out on the way. -/
inductive ComesTo (o : Overflow) (budget : Nat) (task : Task) (s : State) : State → Prop
  | begins {task' x} : Relation.ReflTransGen (Calls o budget) (task, s) (task', x) → ComesTo o budget task s x
  | ends {task' x} : Relation.ReflTransGen (Calls o budget) (task, s) (task', x) →
      ComesTo o budget task s (endState o budget task' x)

theorem comesTo_endState (o : Overflow) (budget : Nat) (task : Task) (s : State) :
    ComesTo o budget task s (endState o budget task s) := .ends .refl

section
variable {budget : Nat} {task : Task} {s x : State}

theorem Calls.path {a b : Task × State} (h : Calls .stops budget a b) : Path budget a.2 b.2 := by
  cases h with
  | operand => exact .refl
  | links hr => exact (run_eq_ok_iff.1 hr).path
  | primary => exact .refl
  | behindPrefix hp hd =>
    obtain ⟨hb, hs⟩ := State.descend_eq_ok_iff.1 hd
    exact .single (hs ▸ moves_of_prefixOp? hp hb)
  | inGroup hn _ hk hd =>
    obtain ⟨hb, hs⟩ := State.descend_eq_ok_iff.1 hd
    exact .single (hs ▸ moves_of_opening hn hk hb)
  | right hl hd =>
    obtain ⟨hb, hs⟩ := State.descend_eq_ok_iff.1 hd
    exact .single (hs ▸ moves_of_linkOp? hl hb)
  | moreLinks hl hd hr =>
    obtain ⟨hb, hs⟩ := State.descend_eq_ok_iff.1 hd
    exact .head (hs ▸ moves_of_linkOp? hl hb) (run_eq_ok_iff.1 hr).path

theorem path_of_calls {a b : Task × State} (h : Relation.ReflTransGen (Calls .stops budget) a b) : Path budget a.2 b.2 := by
  induction h with
  | refl => exact .refl
  | tail _ hc ih => exact ih.trans hc.path

theorem path_endState (budget : Nat) (task : Task) (s : State) : Path budget s (endState .stops budget task s) := by
  unfold endState
  rcases reads_or_fails budget task s with ⟨e, s', hr⟩ | ⟨f, hf⟩
  · rw [hr.run]; exact hr.path
  · rw [hf.run]; exact hf.path

theorem ComesTo.path (h : ComesTo .stops budget task s x) : Path budget s x := by
  cases h with
  | begins hc => exact path_of_calls hc
  | ends hc => exact (path_of_calls hc).trans (path_endState _ _ _)

end
end Parsing
end LoxExpr
