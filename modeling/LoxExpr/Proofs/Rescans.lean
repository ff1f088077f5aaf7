import LoxExpr.Proofs.Layout
import LoxExpr.Proofs.Literals
import LoxExpr.Proofs.SyntaxErrors
/-!
# Rescans: a token says no more and no less than its lexeme

A token of a scan is a lexeme that was the longest one somewhere, and it stays that where the text ends behind it.  So its
lexeme alone is scanned as the token again, whatever it was cut out of.  The literal is read from the lexeme, and every lexeme
of a number or a string can be read: a number is a numeral, and a string has the two quotes that are taken off.

A rule that asks for the literal of a number or a string thus always gets one (`Token.IsFaithful`), and an operand that is
one of them is never said to be missing.
-/
namespace LoxExpr

/-! ## What a lexeme makes -/

namespace Token.IsLexeme

variable {t : Token}

theorem kind_notMem (h : t.IsLexeme) : t.kind ∉ [.comment, .newline, .blanks, .eof] := by
  have hlayout := h.not_layout
  have hmem := h.mem_lexemes
  intro hk
  simp only [List.mem_cons, List.not_mem_nil, or_false] at hk
  rcases hk with hk | hk | hk | hk <;> rw [hk] at hlayout hmem
  · cases hlayout
  · cases hlayout
  · cases hlayout
  · exact absurd hmem (Language.notMem_zero _)

theorem isSome_literal_iff (h : t.IsLexeme) : t.literal.isSome = true ↔ t.kind = .number ∨ t.kind = .string := by
  constructor
  · intro hsome
    rw [h.literal] at hsome
    unfold literalOf? at hsome
    split at hsome
    · next hk => exact .inl hk
    · next hk => exact .inr hk
    · cases hsome
  · rintro (hk | hk)
    · obtain ⟨n, hn, -⟩ := h.number hk
      rw [hn]
      rfl
    · obtain ⟨w, -, hw, -⟩ := h.string hk
      rw [hw]
      rfl

/-- **The lexeme alone is scanned as the token again.** -/
theorem ofText_lexeme (h : t.IsLexeme) : Scan.ofText t.lexeme =
    ⟨[{ t with line := 1 + t.lexeme.toList.count '\n' }, Token.eof (1 + t.lexeme.toList.count '\n')], []⟩ := by
  have hscan := Scan.ofChars_isLexeme h endsLexeme_nil 1
  rw [List.append_nil, Scan.ofChars_nil] at hscan
  exact hscan

end Token.IsLexeme

/-! ## What a rule makes of it -/

namespace Parsing

section
variable {budget : Nat} {s : State} {t : Token} {us : List Token} {v : Value}

theorem literalOf?_eq_literal (hk : t.kind = .number ∨ t.kind = .string) : literalOf? t = t.literal := by
  unfold literalOf?
  rcases hk with hk | hk <;> rw [hk]

/-- **A token that is a literal by itself is an operand**, under every budget. -/
theorem read_primary_of_literal (hs : s.rest = t :: us) (hv : literalOf? t = some v) :
    (read budget .primary s).map Subtype.val = .ok (.literal v, s.advance t us) := by
  have hrun : run .stops budget (.rule .primary) s = .ok (.literal v, s.advance t us) := by
    rw [run_primary_of_some (State.next?_of_rest hs), hv]
  exact hrun

end
end Parsing

/-! ## Tokens of a scan -/

/-- **A token that its text and its literal say the same of.**  It has a literal if it is a number or a string, and then that is
what an operand is read as. -/
structure Token.IsFaithful (t : Token) : Prop where
  kind : t.kind ∉ [.comment, .newline, .blanks, .eof]
  isSome_literal_iff : t.literal.isSome = true ↔ t.kind = .number ∨ t.kind = .string
  number : t.kind = .number → ∃ n : Number, t.literal = some (.number n) ∧ (∀ s, n ≠ .nan s) ∧ n.isNegative = false
  string : t.kind = .string →
    ∃ w : String, '"' ∉ w.toList ∧ t.literal = some (.string w) ∧ t.lexeme = "\"" ++ w ++ "\""
  rescan : Scan.ofText t.lexeme =
    ⟨[{ t with line := 1 + t.lexeme.toList.count '\n' }, Token.eof (1 + t.lexeme.toList.count '\n')], []⟩
  operand : t.kind = .number ∨ t.kind = .string → ∃ v, t.literal = some v ∧ ∀ budget (s : Parsing.State) us,
    s.rest = t :: us → (Parsing.read budget .primary s).map Subtype.val = .ok (.literal v, s.advance t us)

theorem Token.IsLexeme.isFaithful {t : Token} (h : t.IsLexeme) : t.IsFaithful where
  kind := h.kind_notMem
  isSome_literal_iff := h.isSome_literal_iff
  number := h.number
  string := h.string
  rescan := h.ofText_lexeme
  operand hk := by
    obtain ⟨v, hv⟩ := Option.isSome_iff_exists.1 (h.isSome_literal_iff.2 hk)
    exact ⟨v, hv, fun budget s us hs =>
      Parsing.read_primary_of_literal hs ((Parsing.literalOf?_eq_literal hk).trans hv)⟩

theorem Scan.ofText_quoted {w : String} (hw : '"' ∉ w.toList) : ofText ("\"" ++ w ++ "\"") =
    ⟨[⟨.string, "\"" ++ w ++ "\"", some (.string w), 1 + w.toList.count '\n'⟩, Token.eof (1 + w.toList.count '\n')], []⟩ := by
  have hscan := ofChars_quoted hw [] 1
  have htext : ("\"" ++ w ++ "\"").toList = '"' :: (w.toList ++ ['"']) := by simp [String.toList_append]
  rw [List.append_nil, ← htext, ofChars_nil, String.ofList_toList, String.ofList_toList] at hscan
  exact hscan

/-- **The tokens of a scan are faithful to their texts**, all but the closing one behind them.  Each has a literal exactly if it
is a number or a string: a number stands for one that is no `nan` and has no minus sign, a string for the text between
its quotes, which has no quote in it.  The lexeme alone is scanned as the token again, without an error, on the line where it
ends.  Every text without a quote is in turn what its quoted form stands for.  So no scanned number or string is refused where
an operand stands, and where one is said to be missing the token is of another kind. -/
theorem Scan.ofText_isFaithful (source : String) :
    (∃ ts line, (ofText source).tokens = ts ++ [Token.eof line] ∧ ∀ t ∈ ts, t.IsFaithful) ∧
    (∀ w : String, '"' ∉ w.toList → ofText ("\"" ++ w ++ "\"") =
      ⟨[⟨.string, "\"" ++ w ++ "\"", some (.string w), 1 + w.toList.count '\n'⟩, Token.eof (1 + w.toList.count '\n')], []⟩) ∧
    ∀ budget err, Expr.ofTokens budget (ofText source).tokens = .error err → err.cause = .expectedExpression →
      ∃ p rest, (ofText source).tokens = p ++ rest ∧
        err = Parsing.errorAt .expectedExpression (Parsing.lineBehind 1 p) rest ∧
        ∀ t, rest.head? = some t → t.kind ≠ .number ∧ t.kind ≠ .string := by
  have hlexeme : ∀ t ∈ (ofText source).tokens, t.kind ≠ .eof → t.IsLexeme := fun t =>
    isLexeme_of_mem
  refine ⟨?_, fun w => ofText_quoted, fun budget err herr hcause => ?_⟩
  · obtain ⟨ts, line, hts, -⟩ := ofSegments_tokens 1 (Segment.split source.toList)
    have htokens : (ofText source).tokens = ts ++ [Token.eof line] := hts
    refine ⟨ts, line, htokens, fun t ht => ?_⟩
    exact (hlexeme t (htokens ▸ List.mem_append_left _ ht) (kind_ne_eof_of_mem hts ht)).isFaithful
  · obtain ⟨p, rest, htokens, hplace, hlacking⟩ := Parsing.ofTokens_error_lacking herr (by rw [hcause]; decide)
    rw [hcause] at hplace hlacking
    refine ⟨p, rest, htokens, hplace, fun t ht => ?_⟩
    have hmem : t ∈ (ofText source).tokens := by
      rw [htokens]
      exact List.mem_append_right p (List.mem_of_mem_head? ht)
    -- with its literal the token would be the operand that is said to be missing
    have hoperand : ¬ (t.kind = .number ∨ t.kind = .string) := fun hk => by
      have hne : t.kind ≠ .eof := by rcases hk with hk | hk <;> rw [hk] <;> decide
      obtain ⟨v, hv⟩ := Option.isSome_iff_exists.1 ((hlexeme t hmem hne).isSome_literal_iff.2 hk)
      have hdenotes := Grammar.literalOf?_eq_some_iff.1 ((Parsing.literalOf?_eq_literal hk).trans hv)
      exact hlacking t ht ⟨_, .literal hdenotes⟩
    exact not_or.1 hoperand

/-- A string over two lines, and a sum without its right operand. -/
def twoLineString : Token := ⟨.string, "\"a\nb\"", some (.string "a\nb"), 2⟩

theorem Scan.ofText_missingOperand :
    (ofText "\"a\nb\" + )").tokens = [twoLineString, Symbol.plus.token 2, Symbol.rightParen.token 2, Token.eof 2] ∧
    twoLineString.IsFaithful ∧ '"' ∉ "a\nb".toList ∧
    ofText "\"a\nb\"" = ⟨[twoLineString, Token.eof 2], []⟩ ∧
    Expr.ofTokens 9 (ofText "\"a\nb\" + )").tokens = .error ⟨.expectedExpression, .atLexeme ")", 2⟩ ∧
    ∃ p rest, (ofText "\"a\nb\" + )").tokens = p ++ rest ∧
      ⟨.expectedExpression, .atLexeme ")", 2⟩ = Parsing.errorAt .expectedExpression (Parsing.lineBehind 1 p) rest ∧
      ∀ t, rest.head? = some t → t.kind ≠ .number ∧ t.kind ≠ .string := by
  obtain ⟨⟨ts, line, hts, hfaithful⟩, hquoted, hmissing⟩ := ofText_isFaithful "\"a\nb\" + )"
  have htokens : (ofText "\"a\nb\" + )").tokens =
      [twoLineString, Symbol.plus.token 2, Symbol.rightParen.token 2, Token.eof 2] := by decide +kernel
  have hread : Expr.ofTokens 9 [twoLineString, Symbol.plus.token 2, Symbol.rightParen.token 2, Token.eof 2] =
      .error ⟨.expectedExpression, .atLexeme ")", 2⟩ := by cbv
  have hmem : twoLineString ∈ ts := by
    have hlist : [twoLineString, Symbol.plus.token 2, Symbol.rightParen.token 2] ++ [Token.eof 2] = ts ++ [Token.eof line] :=
      htokens.symm.trans hts
    obtain ⟨rfl, -⟩ := List.append_inj' hlist rfl
    exact List.mem_cons_self
  rw [← htokens] at hread
  exact ⟨htokens, hfaithful _ hmem, by decide, hquoted "a\nb" (by decide), hread, hmissing 9 _ hread rfl⟩

end LoxExpr
