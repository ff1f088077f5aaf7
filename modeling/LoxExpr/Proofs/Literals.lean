import LoxExpr.Proofs.SourceText
import LoxExpr.Proofs.Tokenization
/-!
# Literals: where the values of a tree come from

A tree has no value of its own: each of its literals is what one of its tokens stands for (`Derives.exists_denotes`), and a
token of a scan is a lexeme with the value that the lexeme is read as.  A number there is a numeral (`Token.IsLexeme.number`),
and a string ends at its first quote (`Token.IsLexeme.string`).  So what is read from a text has neither a number with a minus
sign nor a string with a quote in it (`literals_of_scan`); all that can keep it from being written again is a number that is
too great.
-/
namespace LoxExpr

open Grammar (Derives Denotes)

def Expr.literals : Expr → List Value
  | literal v => [v]
  | group e => e.literals
  | unary _ _ e => e.literals
  | binary l _ _ r => l.literals ++ r.literals

/-- **A tree can be written if each of its literals can.** -/
theorem Expr.hasSource_iff (e : Expr) : e.HasSource ↔ ∀ v ∈ e.literals, v.HasSource := by
  induction e with
  | literal v => simp [HasSource, literals]
  | group e ih => exact ih
  | unary op t e ih => exact ih
  | binary l op t r ihl ihr => rw [HasSource, literals, List.forall_mem_append, ihl, ihr]

/-- All numbers of a tree are finite. -/
def Expr.IsFinite (e : Expr) : Prop := ∀ n, Value.number n ∈ e.literals → n.isFinite = true

/-! ## From the tokens to the tree -/

/-- **Each literal of a tree is what one of its tokens stands for.** -/
theorem Grammar.Derives.exists_denotes {r : Parsing.Rule} {u : List Token} {e : Expr} (h : Derives r u e) :
    ∀ v ∈ e.literals, ∃ t ∈ u, Denotes t v := by
  induction h with
  | operand _ ih => exact ih
  | link _ _ _ _ ihl ihr =>
    intro v hv
    rcases List.mem_append.1 hv with hv | hv
    · obtain ⟨t, ht, hd⟩ := ihl v hv
      exact ⟨t, List.mem_append_left _ ht, hd⟩
    · obtain ⟨t, ht, hd⟩ := ihr v hv
      exact ⟨t, List.mem_append_right _ (List.mem_cons_of_mem _ ht), hd⟩
  | primary _ ih => exact ih
  | withPrefix _ _ _ ih =>
    intro v hv
    obtain ⟨t, ht, hd⟩ := ih v hv
    exact ⟨t, List.mem_cons_of_mem _ ht, hd⟩
  | literal hd =>
    intro v hv
    obtain rfl := List.mem_singleton.1 hv
    exact ⟨_, List.mem_singleton_self _, hd⟩
  | group _ _ _ ih =>
    intro v hv
    obtain ⟨t, ht, hd⟩ := ih v hv
    exact ⟨t, List.mem_cons_of_mem _ (List.mem_append_left _ ht), hd⟩

/-! ## From the text to the tokens -/

theorem Number.ofDecimal_cases (negative : Bool) (d : Decimal) :
    ofDecimal negative d = infinity negative ∨ ∃ m, ofDecimal negative d = finite negative m := by
  unfold ofDecimal
  cases d.nearest? with
  | none => exact .inl rfl
  | some m => exact .inr ⟨m, rfl⟩

namespace Token.IsLexeme

variable {t : Token}

/-- **A number stands for one that has no minus sign.** -/
theorem number (h : t.IsLexeme) (hk : t.kind = .number) :
    ∃ n : Number, t.literal = some (.number n) ∧ (∀ s, n ≠ .nan s) ∧ n.isNegative = false := by
  have hmem := h.mem_lexemes
  rw [hk] at hmem
  obtain ⟨n, hn⟩ := Segment.mem_number_iff.1 hmem
  have hliteral : t.literal = some (.number (Number.ofDecimal false n.decimal)) := by
    rw [h.literal, hk, ← hn]
    exact congrArg (Option.map Value.number) (Number.ofText?_of_decimal n.splitSign_text n.ofText?_text)
  refine ⟨_, hliteral, ?_⟩
  rcases Number.ofDecimal_cases false n.decimal with hd | ⟨m, hd⟩ <;> rw [hd]
  · exact ⟨nofun, rfl⟩
  · exact ⟨nofun, rfl⟩

/-- **A string stands for what is between its quotes.** -/
theorem string (h : t.IsLexeme) (hk : t.kind = .string) :
    ∃ w : String, '"' ∉ w.toList ∧ t.literal = some (.string w) ∧ t.lexeme = "\"" ++ w ++ "\"" := by
  have hmem := h.mem_lexemes
  rw [hk] at hmem
  obtain ⟨cs, hcs, hlexeme⟩ := Segment.mem_string.1 hmem
  refine ⟨String.ofList cs, by rwa [String.toList_ofList], ?_, ?_⟩
  · rw [h.literal, hk, hlexeme, Token.literalOf?_quoted]
  · rw [← String.toList_inj, hlexeme]
    simp [String.toList_append]

end Token.IsLexeme

/-- What a literal can be that a text is read as. -/
def Value.FromText : Value → Prop
  | number n => n.isNegative = false
  | string s => '"' ∉ s.toList
  | _ => True

/-! ## From the text to the tree -/

section
variable {budget : Nat} {source : String} {e : Expr}

/-- **What is read from a text** has no number with a minus sign and no string with a quote in it. -/
theorem literals_of_scan (h : Expr.ofTokens budget (Scan.ofText source).tokens = .ok e) : ∀ v ∈ e.literals, v.FromText := by
  obtain ⟨u, rest, htokens, -, hd, -⟩ := Parsing.ofTokens_eq_ok_iff_derives.1 h
  intro v hv
  obtain ⟨t, ht, hdenotes⟩ := hd.exists_denotes v hv
  have hmem : t ∈ (Scan.ofText source).tokens := htokens ▸ List.mem_append_left rest ht
  cases hdenotes with
  | number hk hl =>
    obtain ⟨n, hn, -, hsign⟩ := (Scan.isLexeme_of_mem hmem (by rw [hk]; decide)).number hk
    cases hn.symm.trans hl
    exact hsign
  | string hk hl =>
    obtain ⟨w, hw, hliteral, -⟩ := (Scan.isLexeme_of_mem hmem (by rw [hk]; decide)).string hk
    cases hliteral.symm.trans hl
    exact hw
  | trueWord => trivial
  | falseWord => trivial
  | nilWord => trivial

/-- What is read from a text can be written again unless it has a number that is too great. -/
theorem hasSource_of_scan (h : Expr.ofTokens budget (Scan.ofText source).tokens = .ok e) (hfinite : e.IsFinite) :
    e.HasSource := by
  refine e.hasSource_iff.2 fun v hv => ?_
  have hfrom := literals_of_scan h v hv
  cases v with
  | number n => exact hfinite n hv
  | string s => exact hfrom
  | bool b => trivial
  | nil => trivial

end
end LoxExpr
