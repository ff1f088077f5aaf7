import LoxExpr.Proofs.Charge
/-!
# Acceptance: which lists of tokens are read, and as which tree

What is read is derived (`Reads.derives`), and what is derived is read if the budget covers what the tree needs
(`reaches_of_derives`).  The second direction goes along a derivation, where a chain grows at its end, while `chain` reads it
from its front; so the induction says of a layer that whatever its chain goes on to, the layer comes to (`Reaches`).  A rule
ends where no operator of its layer or of a tighter one follows (`StopsAt`), which is all that one token of lookahead does.

Together: a list is accepted as a tree exactly when what stands before its end derives the tree and the tree needs no more
than the budget (`ofTokens_eq_ok_iff_derives`).  `ofTokens_iff_derives` is that under a budget that cannot be used up, and
`ofTokens_iff_need_le` sets two budgets side by side.
-/
namespace LoxExpr
namespace Parsing

open Grammar

section
variable {budget : Nat} {s s' : State} {t : Token} {ts rest : List Token} {e : Expr}

/-! ## The next token -/

theorem State.next?_of_rest (h : s.rest = t :: ts) : s.next? = some (t, s.advance t ts) :=
  State.next?_eq_some_iff.2 ⟨ts, h, rfl⟩

/-- **A rule stops in front of `rest`**: no operator of its own layer, or of a tighter one, is next. -/
def StopsAt (r : Rule) (rest : List Token) : Prop :=
  ∀ t ∈ rest.head?, ∀ op : BinaryOp, t.kind = .symbol op.symbol → r.rank < (Rule.layer op.layer).rank

theorem StopsAt.mono {r r' : Rule} (h : StopsAt r rest) (hr : r'.rank ≤ r.rank) : StopsAt r' rest :=
  fun t ht op hk => Nat.lt_of_le_of_lt hr (h t ht op hk)

theorem StopsAt.operand {l : Layer} (h : StopsAt (.layer l) rest) : StopsAt (operandRule l) rest :=
  h.mono (Nat.le_of_lt (rank_operandRule_lt l))

/-- The operands of a layer end where one of its operators is next. -/
theorem stopsAt_operator {l : Layer} {y : Symbol} {op : BinaryOp} (ho : (y, op) ∈ operators l) (hk : t.kind = .symbol y) :
    StopsAt (operandRule l) (t :: ts) := by
  intro t' ht op' hk'
  cases ht
  obtain ⟨rfl, rfl⟩ := mem_operators_iff.1 ho
  have hop : op' = op := Option.some.inj ((BinaryOp.ofKind?_eq_some_iff.2 hk').symm.trans (BinaryOp.ofKind?_eq_some_iff.2 hk))
  rw [hop]; exact rank_operandRule_lt _

theorem stopsAt_of_head (r : Rule) (h : ∀ t ∈ rest.head?, BinaryOp.ofKind? t.kind = none) : StopsAt r rest := by
  intro t ht op hk
  have := (h t ht).symm.trans (BinaryOp.ofKind?_eq_some_iff.2 hk)
  cases this

theorem AtEnd.stopsAt (h : AtEnd rest) (r : Rule) : StopsAt r rest :=
  stopsAt_of_head r fun t ht => by rw [h t ht]; rfl

theorem linkOp?_of_stopsAt {l : Layer} (h : StopsAt (.layer l) s.rest) : s.linkOp? l = none := by
  refine Option.eq_none_iff_forall_ne_some.2 ?_
  rintro ⟨op, t, s₁⟩ hl
  obtain ⟨hn, hk, rfl⟩ := State.linkOp?_eq_some_iff.1 hl
  obtain ⟨ts, hr, -⟩ := State.next?_eq_some_iff.1 hn
  exact Nat.lt_irrefl _ (h t (by rw [hr]; rfl) op hk)

theorem Reads.prefixOp?_eq_none (h : Reads budget (.rule .primary) s e s') : s.prefixOp? = none := by
  refine Option.eq_none_iff_forall_ne_some.2 ?_
  rintro ⟨op, t, s₁⟩ hp
  obtain ⟨hn, hk⟩ := State.prefixOp?_eq_some_iff.1 hp
  cases h with
  | literal hn' hv => rw [hn] at hn'; cases hn'; rw [literalOf?_of_symbol hk] at hv; cases hv
  | group hn' _ hk' => rw [hn] at hn'; cases hn'; rw [hk'] at hk; cases op <;> cases hk

end

/-! ## What is derived is read -/

/-- How far a rule comes with the tokens of a derivation, `rest` being left.  A layer may go on with more links: whatever the
chain behind `e` comes to, the layer comes to. -/
def Reaches (budget : Nat) : Rule → State → Expr → List Token → Prop
  | .layer l, s, e, rest => StopsAt (operandRule l) rest → ∃ s₁, s₁.rest = rest ∧ s₁.depth = s.depth + e.chainLength l ∧
      ∀ e' s₂, Reads budget (.links l e) s₁ e' s₂ → Reads budget (.rule (.layer l)) s e' (s₂.restore s.depth)
  | r, s, e, rest => ∃ s₁, s₁.rest = rest ∧ s₁.depth = s.depth ∧ Reads budget (.rule r) s e s₁

theorem Reaches.reads {budget : Nat} {r : Rule} {s : State} {e : Expr} {rest : List Token}
    (h : Reaches budget r s e rest) (hs : StopsAt r rest) :
    ∃ s', s'.rest = rest ∧ s'.depth = s.depth ∧ Reads budget (.rule r) s e s' := by
  cases r with
  | layer l =>
    obtain ⟨s₁, hr, -, hgo⟩ := h hs.operand
    exact ⟨s₁.restore s.depth, hr, rfl, hgo e s₁ (.noLink (linkOp?_of_stopsAt (by rw [hr]; exact hs)))⟩
  | unary => exact h
  | primary => exact h

/-- **What is derived is read**, from any state that the tokens are next in. -/
theorem reaches_of_derives {budget : Nat} {r : Rule} {u : List Token} {e : Expr} (h : Derives r u e) :
    ∀ (s : State) (rest : List Token), s.rest = u ++ rest → s.depth + e.need ≤ budget → Reaches budget r s e rest := by
  induction h with
  | @operand l u e hd ih =>
    intro s rest hr hb hst
    obtain ⟨s₁, hr₁, hd₁, hreads⟩ := (ih s rest hr hb).reads hst
    refine ⟨s₁, hr₁, by rw [hd₁, hd.chainLength_operand]; rfl, fun e' s₂ hl => .layer ?_ hl⟩
    rw [← operandRule_eq]; exact hreads
  | @link l u left y op t v right _ ho hk _ ih₁ ih₂ =>
    intro s rest hr hb hst
    obtain ⟨rfl, rfl⟩ := mem_operators_iff.1 ho
    simp only [Expr.need] at hb
    -- the chain up to `left` goes on with this link and, behind it, with whatever follows
    obtain ⟨s₁, hr₁, hd₁, hgo⟩ := ih₁ s (t :: (v ++ rest)) (by rw [hr]; simp) (by omega) (stopsAt_operator ho hk)
    have hn : s₁.next? = some (t, s₁.advance t (v ++ rest)) := State.next?_of_rest hr₁
    have hcharge : (s₁.advance t (v ++ rest)).depth + operatorCost ≤ budget := by
      simp only [State.advance, operatorCost, hd₁]; omega
    obtain ⟨s₂, hr₂, hd₂, hright⟩ := (ih₂ ((s₁.advance t (v ++ rest)).charged operatorCost) rest rfl (by
      simp only [State.charged, State.advance, operatorCost, hd₁]; omega)).reads hst
    refine ⟨s₂, hr₂, ?_, fun e' s₃ hl => hgo e' s₃ (.link (State.linkOp?_eq_some_iff.2 ⟨hn, hk, rfl⟩) hcharge ?_ hl)⟩
    · rw [hd₂]
      simp only [State.charged, State.advance, operatorCost, hd₁, Expr.chainLength, if_true]
      omega
    · rw [← operandRule_eq]; exact hright
  | primary _ ih =>
    intro s rest hr hb
    obtain ⟨s₁, hr₁, hd₁, hreads⟩ := ih s rest hr hb
    exact ⟨s₁, hr₁, hd₁, .noPrefix hreads.prefixOp?_eq_none hreads⟩
  | @withPrefix y op t u e hy hk _ ih =>
    intro s rest hr hb
    obtain rfl := mem_prefixes_iff.1 hy
    simp only [Expr.need] at hb
    have hn : s.next? = some (t, s.advance t (u ++ rest)) := State.next?_of_rest hr
    obtain ⟨s₂, hr₂, -, hreads⟩ := ih ((s.advance t (u ++ rest)).charged operatorCost) rest rfl (by
      simp only [State.charged, State.advance, operatorCost]; omega)
    exact ⟨s₂.restore s.depth, hr₂, rfl, .withPrefix (State.prefixOp?_eq_some_iff.2 ⟨hn, hk⟩) (by
      simp only [State.advance, operatorCost]; omega) hreads⟩
  | @literal t v hv =>
    intro s rest hr _
    exact ⟨s.advance t rest, rfl, rfl, .literal (State.next?_of_rest hr) (literalOf?_eq_some_iff.2 hv)⟩
  | @group t u t' e hk _ hk' ih =>
    intro s rest hr hb
    simp only [Expr.need] at hb
    have hr' : s.rest = t :: (u ++ t' :: rest) := by rw [hr]; simp
    have hn : s.next? = some (t, s.advance t (u ++ t' :: rest)) := State.next?_of_rest hr'
    -- the closing parenthesis is no operator, so the expression inside ends in front of it
    have hst : StopsAt Rule.expression (t' :: rest) := stopsAt_of_head _ fun t ht => by cases ht; rw [hk']; rfl
    obtain ⟨s₂, hr₂, -, hreads⟩ := (ih ((s.advance t (u ++ t' :: rest)).charged groupCost) (t' :: rest) rfl (by
      simp only [State.charged, State.advance, groupCost]; omega)).reads hst
    have hc : (s₂.restore s.depth).closingParen? = some ((s₂.restore s.depth).advance t' rest) :=
      State.closingParen?_eq_some_iff.2 ⟨t', State.next?_of_rest hr₂, hk'⟩
    exact ⟨(s₂.restore s.depth).advance t' rest, rfl, rfl, .group hn (literalOf?_of_symbol hk) hk (by
      simp only [State.advance, groupCost]; omega) hreads hc⟩

/-! ## Whole lists -/

/-- **A list within a budget**: what stands before its end is derived, and the tree needs no more than the budget. -/
theorem ofTokens_eq_ok_iff_derives {budget : Nat} {tokens : List Token} {e : Expr} :
    Expr.ofTokens budget tokens = .ok e ↔
      ∃ u rest, tokens = u ++ rest ∧ AtEnd rest ∧ Derives (.layer .equality) u e ∧ e.need ≤ budget := by
  rw [ofTokens_eq_ok_iff]
  constructor
  · rintro ⟨s, hr, he⟩
    obtain ⟨u, hu, hd⟩ := hr.derives
    have := (hr.accounts (Nat.zero_le _)).2
    exact ⟨u, s.rest, hu, he, hd, by simpa [State.start] using this⟩
  · rintro ⟨u, rest, rfl, he, hd, hneed⟩
    obtain ⟨s, hs, -, hr⟩ := (reaches_of_derives hd (State.start (u ++ rest)) rest rfl (by
      simpa [State.start] using hneed)).reads (he.stopsAt _)
    exact ⟨s, hr, by rw [hs]; exact he⟩

theorem derives_unique {u : List Token} {e₁ e₂ : Expr} (h₁ : Derives (.layer .equality) u e₁)
    (h₂ : Derives (.layer .equality) u e₂) : e₁ = e₂ := by
  have hr : ∀ {e}, Derives (.layer .equality) u e → Expr.ofTokens (4 * u.length) u = .ok e := fun hd =>
    ofTokens_eq_ok_iff_derives.2 ⟨u, [], by rw [List.append_nil], fun _ ht => (by cases ht), hd, hd.need_le⟩
  exact Except.ok.inj ((hr h₁).symm.trans (hr h₂))

/-- **The parser accepts its grammar and builds the one tree.**  Under a budget that no list of this length can use up, a
list is accepted as a tree exactly when the tokens before its end are that tree; no tokens are two trees; and the tokens
are the parts of their tree, one for one. -/
theorem ofTokens_iff_derives (budget : Nat) (tokens : List Token) (e : Expr) (hb : 4 * tokens.length ≤ budget) :
    (Expr.ofTokens budget tokens = .ok e ↔
      ∃ u rest, tokens = u ++ rest ∧ AtEnd rest ∧ Derives (.layer .equality) u e) ∧
    (∀ u e₁ e₂, Derives (.layer .equality) u e₁ → Derives (.layer .equality) u e₂ → e₁ = e₂) ∧
    ∀ u, Derives (.layer .equality) u e → List.Forall₂ StandsFor u (parts e) := by
  refine ⟨⟨fun h => ?_, ?_⟩, fun u e₁ e₂ => derives_unique, fun u => Derives.forall₂_parts⟩
  · obtain ⟨u, rest, ht, he, hd, -⟩ := ofTokens_eq_ok_iff_derives.1 h
    exact ⟨u, rest, ht, he, hd⟩
  · rintro ⟨u, rest, rfl, he, hd⟩
    refine ofTokens_eq_ok_iff_derives.2 ⟨u, rest, rfl, he, hd, Nat.le_trans hd.need_le (Nat.le_trans ?_ hb)⟩
    rw [List.length_append]; omega

/-- The tokens of a string compared with a group, with a parenthesis behind the closing token. -/
def comparedTokens : List Token :=
  [⟨.string, "\"a\"", some (.string "a"), 1⟩, BinaryOp.token .equal 1, Symbol.token .leftParen 1, UnaryOp.token .not 1,
    ⟨.keyword .trueWord, "true", none, 1⟩, Symbol.token .rightParen 1, Token.eof 1, Symbol.token .rightParen 2]

/-- Their tree. -/
def comparedTree : Expr :=
  .binaryAt (.literal (.string "a")) .equal (.group (.unaryAt .not (.literal (.bool true)) 1)) 1

theorem derives_comparedTree : Derives (.layer .equality) (comparedTokens.take 6) comparedTree := by
  have ha : Derives .unary [⟨.string, "\"a\"", some (.string "a"), 1⟩] (.literal (.string "a")) :=
    .primary (.literal (.string rfl rfl))
  have hnot : Derives .unary [UnaryOp.token .not 1, ⟨.keyword .trueWord, "true", none, 1⟩]
      (.unaryAt .not (.literal (.bool true)) 1) :=
    .withPrefix (by decide) (y := .bang) rfl (.primary (.literal (.trueWord rfl)))
  exact .link (ha.layer_of_unary _) (by decide) rfl
    (Derives.operand_of_unary (.primary (.group rfl (hnot.layer_of_unary _) rfl)) _)

/-- What follows the closing token is not looked at. -/
theorem ofTokens_comparedTokens :
    4 * comparedTokens.length ≤ 32 ∧ Expr.ofTokens 32 comparedTokens = .ok comparedTree :=
  ⟨by decide, (ofTokens_iff_derives 32 comparedTokens comparedTree (by decide)).1.2
    ⟨comparedTokens.take 6, comparedTokens.drop 6, rfl, fun t ht => by cases ht; rfl, derives_comparedTree⟩⟩

/-! ## Exact budgets -/

theorem asked_le_greatestWord (budget : Nat) {tokens : List Token} (hn : tokens.length < 0x4000000000000000) :
    asked budget tokens ≤ greatestWord := by
  refine Nat.le_trans (asked_le budget tokens) ?_
  unfold greatestWord; omega

/-- **The budget is exact**: below the greatest one, a list is accepted as a tree exactly when it is accepted under the
greatest one and the tree needs no more than the budget.  With fewer tokens than a quarter of all words, the sums of a depth
and a charge are words under both budgets, so a sum that stops at the greatest word is the plain sum. -/
theorem ofTokens_iff_need_le (budget : Nat) (tokens : List Token) (e : Expr) (hb : budget ≤ greatestWord)
    (hn : tokens.length < 0x4000000000000000) :
    (Expr.ofTokens budget tokens = .ok e ↔ Expr.ofTokens greatestWord tokens = .ok e ∧ e.need ≤ budget) ∧
    asked budget tokens ≤ greatestWord ∧ asked greatestWord tokens ≤ greatestWord := by
  refine ⟨⟨fun h => ?_, ?_⟩, ?_, ?_⟩
  · obtain ⟨u, rest, ht, he, hd, hneed⟩ := ofTokens_eq_ok_iff_derives.1 h
    exact ⟨ofTokens_eq_ok_iff_derives.2 ⟨u, rest, ht, he, hd, Nat.le_trans hneed hb⟩, hneed⟩
  · rintro ⟨h, hneed⟩
    obtain ⟨u, rest, ht, he, hd, -⟩ := ofTokens_eq_ok_iff_derives.1 h
    exact ofTokens_eq_ok_iff_derives.2 ⟨u, rest, ht, he, hd, hneed⟩
  · exact asked_le_greatestWord budget hn
  · exact asked_le_greatestWord greatestWord hn

/-- The comparison needs six units, one for its link, four for the group and one for the prefix operator in it. -/
theorem ofTokens_comparedTokens_six : 6 ≤ greatestWord ∧ comparedTokens.length < 0x4000000000000000 ∧
    Expr.ofTokens 6 comparedTokens = .ok comparedTree ∧ Expr.ofTokens 5 comparedTokens ≠ .ok comparedTree := by
  have hmax : Expr.ofTokens greatestWord comparedTokens = .ok comparedTree :=
    ofTokens_eq_ok_iff_derives.2 ⟨comparedTokens.take 6, comparedTokens.drop 6, rfl, fun t ht => by cases ht; rfl,
      derives_comparedTree, by decide⟩
  refine ⟨by decide, by decide, ?_, fun h => ?_⟩
  · exact (ofTokens_iff_need_le 6 comparedTokens comparedTree (by decide) (by decide)).1.2 ⟨hmax, by decide⟩
  · have := ((ofTokens_iff_need_le 5 comparedTokens comparedTree (by decide) (by decide)).1.1 h).2
    exact absurd this (by decide)

end Parsing
end LoxExpr
