import LoxExpr.Proofs.Reading
import Mathlib.Data.List.Forall2
/-!
# The grammar, and what its derivations leave of a list of tokens

    layer    :=  layer operator operand | operand      equality, comparison, term, factor, each the operand of the one before
    unary    :=  ("!" | "-") unary | primary
    primary  :=  NUMBER | STRING | "true" | "false" | "nil" | "(" equality ")"

`Derives` says which tokens are which tree.  It is left-recursive where the rules read a chain, and it knows neither states
nor budgets; the operators of a layer are listed here once more, by their symbols (`mem_operators_iff` says that the lists
agree with those of the operators).  `Derives.forall₂_parts` is the fact that nothing is lost on the way: the tokens are
the parts of the tree from left to right, one for one.
-/
namespace LoxExpr
namespace Grammar

open Parsing (Rule)

/-! ## Operators and operands -/

/-- The operators of a layer with their symbols. -/
def operators : Layer → List (Symbol × BinaryOp)
  | .equality => [(.bangEqual, .notEqual), (.equalEqual, .equal)]
  | .comparison => [(.greater, .greater), (.greaterEqual, .greaterEqual), (.less, .less), (.lessEqual, .lessEqual)]
  | .term => [(.minus, .sub), (.plus, .add)]
  | .factor => [(.slash, .div), (.star, .mul)]

/-- The prefix operators with their symbols. -/
def prefixes : List (Symbol × UnaryOp) := [(.bang, .not), (.minus, .negate)]

/-- What the operators of a layer stand between. -/
def operandRule : Layer → Rule
  | .equality => .layer .comparison
  | .comparison => .layer .term
  | .term => .layer .factor
  | .factor => .unary

theorem mem_operators_iff {l : Layer} {y : Symbol} {op : BinaryOp} :
    (y, op) ∈ operators l ↔ y = op.symbol ∧ op.layer = l := by
  cases l <;> cases op <;> simp [operators, BinaryOp.symbol, BinaryOp.layer]

theorem mem_prefixes_iff {y : Symbol} {op : UnaryOp} : (y, op) ∈ prefixes ↔ y = op.symbol := by
  cases op <;> simp [prefixes, UnaryOp.symbol]

theorem operandRule_eq (l : Layer) : operandRule l = Rule.operandOf l := by
  cases l <;> rfl

theorem rank_operandRule_lt (l : Layer) : (operandRule l).rank < (Rule.layer l).rank := by
  rw [operandRule_eq]; exact Parsing.Rule.rank_operandOf l

/-! ## Derivations -/

/-- **The literal that a token is**: a number or a string only by the value it carries. -/
inductive Denotes : Token → Value → Prop
  | number {t v} : t.kind = .number → t.literal = some v → Denotes t v
  | string {t v} : t.kind = .string → t.literal = some v → Denotes t v
  | trueWord {t} : t.kind = .keyword .trueWord → Denotes t (.bool true)
  | falseWord {t} : t.kind = .keyword .falseWord → Denotes t (.bool false)
  | nilWord {t} : t.kind = .keyword .nilWord → Denotes t .nil

/-- **The tokens `u` are the tree `e`** by a rule of the grammar. -/
inductive Derives : Rule → List Token → Expr → Prop
  | operand {l u e} : Derives (operandRule l) u e → Derives (.layer l) u e
  | link {l u left y op t v right} : Derives (.layer l) u left → (y, op) ∈ operators l → t.kind = .symbol y →
      Derives (operandRule l) v right → Derives (.layer l) (u ++ t :: v) (.binary left op t right)
  | primary {u e} : Derives .primary u e → Derives .unary u e
  | withPrefix {y op t u e} : (y, op) ∈ prefixes → t.kind = .symbol y → Derives .unary u e →
      Derives .unary (t :: u) (.unary op t e)
  | literal {t v} : Denotes t v → Derives .primary [t] (.literal v)
  | group {t u t' e} : t.kind = .symbol .leftParen → Derives (.layer .equality) u e → t'.kind = .symbol .rightParen →
      Derives .primary (t :: (u ++ [t'])) (.group e)

/-- What the tightest operators stand between is an expression of every layer. -/
theorem Derives.layer_of_unary {u : List Token} {e : Expr} (h : Derives .unary u e) (l : Layer) : Derives (.layer l) u e := by
  have hf : Derives (.layer .factor) u e := .operand h
  have ht : Derives (.layer .term) u e := .operand hf
  have hc : Derives (.layer .comparison) u e := .operand ht
  cases l with
  | equality => exact .operand hc
  | comparison => exact hc
  | term => exact ht
  | factor => exact hf

theorem Derives.operand_of_unary {u : List Token} {e : Expr} (h : Derives .unary u e) (l : Layer) :
    Derives (operandRule l) u e := by
  cases l with
  | factor => exact h
  | _ => exact h.layer_of_unary _

theorem Derives.equality_of_layer {u : List Token} {e : Expr} {l : Layer} (h : Derives (.layer l) u e) :
    Derives (.layer .equality) u e := by
  cases l with
  | equality => exact h
  | comparison => exact .operand h
  | term => exact .operand (l := .equality) (.operand (l := .comparison) h)
  | factor => exact .operand (l := .equality) (.operand (l := .comparison) (.operand (l := .term) h))

theorem literalOf?_eq_some_iff {t : Token} {v : Value} : Parsing.literalOf? t = some v ↔ Denotes t v := by
  constructor
  · intro h
    unfold Parsing.literalOf? at h
    split at h
    · next hk => exact .number hk h
    · next hk => exact .string hk h
    · next hk => cases h; exact .trueWord hk
    · next hk => cases h; exact .falseWord hk
    · next hk => cases h; exact .nilWord hk
    · cases h
  · rintro (⟨hk, hv⟩ | ⟨hk, hv⟩ | hk | hk | hk) <;> simp [Parsing.literalOf?, *]

theorem literalOf?_of_symbol {t : Token} {y : Symbol} (h : t.kind = .symbol y) : Parsing.literalOf? t = none := by
  simp [Parsing.literalOf?, h]

theorem kind_ne_eof_of_literalOf? {t : Token} {v : Value} (h : Parsing.literalOf? t = some v) : t.kind ≠ .eof := by
  intro hk
  simp [Parsing.literalOf?, hk] at h

/-! ## The parts of a tree -/

/-- What one token is to a tree. -/
inductive Part where
  | literal (v : Value)
  | operator (t : Token)
  | opening
  | closing

/-- **The parts of a tree** from left to right. -/
def parts : Expr → List Part
  | .literal v => [.literal v]
  | .group e => .opening :: (parts e ++ [.closing])
  | .unary _ t e => .operator t :: parts e
  | .binary l _ t r => parts l ++ .operator t :: parts r

/-- A token stands for a part: an operator for itself, a parenthesis for its side of a group. -/
inductive StandsFor : Token → Part → Prop
  | literal {t v} : Denotes t v → StandsFor t (.literal v)
  | operator {t} : StandsFor t (.operator t)
  | opening {t} : t.kind = .symbol .leftParen → StandsFor t .opening
  | closing {t} : t.kind = .symbol .rightParen → StandsFor t .closing

/-- **No token is lost, doubled or moved**: those of a derivation stand for the parts of its tree, one for one. -/
theorem Derives.forall₂_parts {r : Rule} {u : List Token} {e : Expr} (h : Derives r u e) :
    List.Forall₂ StandsFor u (parts e) := by
  induction h with
  | operand _ ih => exact ih
  | link _ _ _ _ ihl ihr => exact List.rel_append ihl (.cons .operator ihr)
  | primary _ ih => exact ih
  | withPrefix _ _ _ ih => exact .cons .operator ih
  | literal hd => exact .cons (.literal hd) .nil
  | group hk _ hk' ih => exact .cons (.opening hk) (List.rel_append ih (.cons (.closing hk') .nil))

/-! ## What stands in an expression -/

/-- A token of an expression is a literal or a symbol. -/
theorem Derives.literal_or_symbol {r : Rule} {u : List Token} {e : Expr} (h : Derives r u e) :
    ∀ t ∈ u, (∃ v, Denotes t v) ∨ ∃ y, t.kind = .symbol y := by
  induction h with
  | operand _ ih => exact ih
  | link _ _ hk _ ihl ihr => exact List.forall_mem_append.2 ⟨ihl, List.forall_mem_cons.2 ⟨.inr ⟨_, hk⟩, ihr⟩⟩
  | primary _ ih => exact ih
  | withPrefix _ hk _ ih => exact List.forall_mem_cons.2 ⟨.inr ⟨_, hk⟩, ih⟩
  | literal hv => exact List.forall_mem_singleton.2 (.inl ⟨_, hv⟩)
  | group hk _ hk' ih =>
    refine List.forall_mem_cons.2 ⟨.inr ⟨_, hk⟩, List.forall_mem_append.2 ⟨ih, ?_⟩⟩
    exact List.forall_mem_singleton.2 (.inr ⟨_, hk'⟩)

theorem Derives.kind_ne {k : TokenKind} (hk : ∀ t v, Denotes t v → t.kind ≠ k) (hk' : ∀ y, k ≠ .symbol y)
    {r : Rule} {u : List Token} {e : Expr} (h : Derives r u e) : ∀ t ∈ u, t.kind ≠ k := by
  intro t ht heq
  rcases h.literal_or_symbol t ht with ⟨v, hv⟩ | ⟨y, hy⟩
  · exact hk t v hv heq
  · exact hk' y (heq.symm.trans hy)

theorem Derives.kind_ne_eof {r : Rule} {u : List Token} {e : Expr} (h : Derives r u e) : ∀ t ∈ u, t.kind ≠ .eof :=
  h.kind_ne (fun t v hv => by rcases hv with ⟨hk, -⟩ | ⟨hk, -⟩ | hk | hk | hk <;> simp [hk]) (fun _ => by simp)

end Grammar

namespace Parsing

open Grammar

/-! ## What is read is derived -/

/-- What a task makes of the tokens `u` that it uses up. -/
def Makes : Task → List Token → Expr → Prop
  | .rule r, v, e => Derives r v e
  | .links l left, v, e => ∀ u, Derives (.layer l) u left → Derives (.layer l) (u ++ v) e

theorem Reads.derives {budget : Nat} {task : Task} {s s' : State} {e : Expr} (h : Reads budget task s e s') :
    ∃ u, s.rest = u ++ s'.rest ∧ Makes task u e := by
  induction h with
  | @layer l s left s₁ e s₂ _ _ ih₁ ih₂ =>
    obtain ⟨u, hu, hd⟩ := ih₁
    obtain ⟨v, hv, hl⟩ := ih₂
    refine ⟨u ++ v, by rw [hu, hv, List.append_assoc]; rfl, hl u (.operand ?_)⟩
    rw [operandRule_eq]; exact hd
  | noPrefix _ _ ih =>
    obtain ⟨u, hu, hd⟩ := ih
    exact ⟨u, hu, .primary hd⟩
  | withPrefix hp _ _ ih =>
    obtain ⟨u, hu, hd⟩ := ih
    obtain ⟨hn, hk⟩ := State.prefixOp?_eq_some_iff.1 hp
    obtain ⟨ts, hr, rfl⟩ := State.next?_eq_some_iff.1 hn
    exact ⟨_ :: u, by rw [hr]; exact congrArg _ hu, .withPrefix (mem_prefixes_iff.2 rfl) hk hd⟩
  | literal hn hv =>
    obtain ⟨ts, hr, rfl⟩ := State.next?_eq_some_iff.1 hn
    exact ⟨[_], hr, .literal (literalOf?_eq_some_iff.1 hv)⟩
  | group hn _ hk _ _ hc ih =>
    obtain ⟨u, hu, hd⟩ := ih
    obtain ⟨ts, hr, rfl⟩ := State.next?_eq_some_iff.1 hn
    obtain ⟨t', hn', hk'⟩ := State.closingParen?_eq_some_iff.1 hc
    obtain ⟨ts', hr', rfl⟩ := State.next?_eq_some_iff.1 hn'
    refine ⟨_ :: (u ++ [t']), ?_, .group hk hd hk'⟩
    have hts : ts = u ++ t' :: ts' := hu.trans (congrArg _ hr')
    rw [hr, hts]
    simp [State.advance]
  | noLink _ => exact ⟨[], rfl, fun u hu => by rw [List.append_nil]; exact hu⟩
  | @link l left s op t s₁ right s₂ e s₃ hl _ _ _ ih₁ ih₂ =>
    obtain ⟨v, hv, hd⟩ := ih₁
    obtain ⟨w, hw, hl'⟩ := ih₂
    obtain ⟨hn, hk, ho⟩ := State.linkOp?_eq_some_iff.1 hl
    obtain ⟨ts, hr, rfl⟩ := State.next?_eq_some_iff.1 hn
    have hts : ts = v ++ (w ++ s₃.rest) := hv.trans (congrArg _ hw)
    refine ⟨t :: (v ++ w), by rw [hr, hts]; simp, fun u hu => ?_⟩
    have := hl' (u ++ t :: v) (.link hu (mem_operators_iff.2 ⟨rfl, ho⟩) hk (by rw [operandRule_eq]; exact hd))
    simpa using this

end Parsing
end LoxExpr
