import LoxExpr.Proofs.Below
/-!
# Ends: the closing token, or no token at all

A list of tokens ends in front of its first closing token, or where the tokens run out.  To a reading the two ends are one:
lists that are the same up to their ends are alike (`alike_append`), so they are read in step.  Only an error at the end can
tell, by its line, for a closing token has a line of its own, and without one it is that of the last token.

What stands behind the closing token is therefore never looked at (`ofTokens_append_closing`).
-/
namespace LoxExpr

@[simp] theorem Expr.relined_id (e : Expr) : e.relined id = e := by
  induction e with
  | literal v => rfl
  | group e ih => rw [relined, ih]
  | unary op t e ih => rw [relined, ih]; rfl
  | binary l op t r ihl ihr => rw [relined, ihl, ihr]; rfl

namespace Parsing

section
variable {ts us vs : List Token} {z : Token}

theorem atEnd_nil : AtEnd [] := fun _ h => nomatch h

theorem atEnd_closing (hz : z.kind = .eof) (rest : List Token) : AtEnd (z :: rest) := fun _ h => by cases h; exact hz

/-- **Lists that are the same up to their ends are alike.** -/
theorem alike_append (hts : ∀ t ∈ ts, t.kind ≠ .eof) (hus : AtEnd us) (hvs : AtEnd vs) : Alike id (ts ++ us) (ts ++ vs) := by
  induction ts with
  | nil => exact .ends hus hvs
  | cons t ts ih =>
    obtain ⟨ht, hts⟩ := List.forall_mem_cons.1 hts
    exact .cons ht (ih hts)

/-! ### The line of the end -/

theorem endLine_append (hts : ∀ t ∈ ts, t.kind ≠ .eof) (line : Nat) :
    endLine line (ts ++ us) = endLine (lineBehind line ts) us := by
  induction ts generalizing line with
  | nil => rfl
  | cons t ts ih =>
    obtain ⟨ht, hts⟩ := List.forall_mem_cons.1 hts
    rw [List.cons_append, endLine, if_neg ht, ih hts]
    rfl

theorem endLine_append_closing (hts : ∀ t ∈ ts, t.kind ≠ .eof) (hz : z.kind = .eof) (line : Nat) (rest : List Token) :
    endLine line (ts ++ z :: rest) = z.line := by
  rw [endLine_append hts, endLine, if_pos hz]

/-- Without a closing token the end is on the line of the last token. -/
theorem endLine_of_forall_ne (hts : ∀ t ∈ ts, t.kind ≠ .eof) (line : Nat) :
    endLine line ts = (ts.getLast?.map Token.line).getD line := by
  rw [← lineBehind_eq, ← List.append_nil ts, endLine_append hts, List.append_nil]
  rfl

end

/-! ## Whole lists -/

/-- An error on no other line is the same error. -/
theorem SameError.eq {m : Nat} {err err' : ParseError} (h : SameError id m m err err') : err' = err :=
  SameError.eq_down (k := 0) h

/-- **Nothing behind the closing token is looked at.** -/
theorem ofTokens_behind_closing (budget : Nat) {ts : List Token} {z : Token} (hts : ∀ t ∈ ts, t.kind ≠ .eof)
    (hz : z.kind = .eof) (rest rest' : List Token) :
    Expr.ofTokens budget (ts ++ z :: rest') = Expr.ofTokens budget (ts ++ z :: rest) := by
  have halike := ofTokens_alike budget (alike_append hts (atEnd_closing hz rest) (atEnd_closing hz rest'))
  rw [endLine_append_closing hts hz, endLine_append_closing hts hz] at halike
  rcases halike with ⟨e, he, he'⟩ | ⟨err, err', he, he', hsame⟩
  · rw [he, he', e.relined_id]
  · rw [he, he', hsame.eq]

/-- **A closing token and the end of the tokens are the same end.**  A list without a closing token is read as the same tree
whether one stands behind it, with whatever tokens after that, or none; or it is refused for the same reason at the same
place.  The line is the same as well, but for an error at the end: that is on the line of the closing token, or without one
on the line of the last token, or on the first line if there is no token.  No token behind the closing one changes anything. -/
theorem ofTokens_append_closing (budget : Nat) (ts : List Token) (z : Token) (rest : List Token)
    (hts : ∀ t ∈ ts, t.kind ≠ .eof) (hz : z.kind = .eof) :
    ((∃ e, Expr.ofTokens budget (ts ++ [z] ++ rest) = .ok e ∧ Expr.ofTokens budget ts = .ok e) ∨
      ∃ err err', Expr.ofTokens budget (ts ++ [z] ++ rest) = .error err ∧ Expr.ofTokens budget ts = .error err' ∧
        err.cause = err'.cause ∧ err.location = err'.location ∧
        if err.location = .atEnd then err.line = z.line ∧ err'.line = (ts.getLast?.map Token.line).getD 1
        else err.line = err'.line) ∧
    ∀ rest', Expr.ofTokens budget (ts ++ [z] ++ rest') = Expr.ofTokens budget (ts ++ [z] ++ rest) := by
  rw [List.append_assoc, List.singleton_append]
  refine ⟨?_, fun rest' => ?_⟩
  · have halike := ofTokens_alike budget (alike_append hts (atEnd_closing hz rest) atEnd_nil)
    rw [endLine_append_closing hts hz, List.append_nil, endLine_of_forall_ne hts] at halike
    rcases halike with ⟨e, he, he'⟩ | ⟨err, err', he, he', hcause, hlocation, hline⟩
    · exact .inl ⟨e, he, by rw [he', e.relined_id]⟩
    · refine .inr ⟨err, err', he, he', hcause.symm, hlocation.symm, ?_⟩
      split at hline
      · next hend => rw [if_pos hend]; exact hline
      · next hend => rw [if_neg hend]; exact hline.symm
  · rw [List.append_assoc, List.singleton_append]
    exact ofTokens_behind_closing budget hts hz rest rest'

/-- A group that is left open on the second line. -/
def openGroup : List Token := [Symbol.token .leftParen 1, ⟨.keyword .nilWord, "nil", none, 2⟩]

/-- The parenthesis behind the closing token comes too late, and the lines are those of the two ends. -/
theorem ofTokens_openGroup : (∀ t ∈ openGroup, t.kind ≠ .eof) ∧ (Token.eof 7).kind = .eof ∧
    Expr.ofTokens 4 (openGroup ++ [Token.eof 7] ++ [Symbol.token .rightParen 8]) =
      .error ⟨.expectedClosingParen, .atEnd, 7⟩ ∧
    Expr.ofTokens 4 openGroup = .error ⟨.expectedClosingParen, .atEnd, 2⟩ := by
  have hopen : ∀ t ∈ openGroup, t.kind ≠ .eof := by decide
  have hclosed : Expr.ofTokens 4 (openGroup ++ [Token.eof 7] ++ [Symbol.token .rightParen 8]) =
      .error ⟨.expectedClosingParen, .atEnd, 7⟩ := by cbv
  refine ⟨hopen, rfl, hclosed, ?_⟩
  obtain ⟨⟨e, he, -⟩ | ⟨err, ⟨cause, location, line⟩, he, he', hcause, hlocation, hline⟩, -⟩ :=
    ofTokens_append_closing 4 openGroup (Token.eof 7) [Symbol.token .rightParen 8] hopen rfl
  · cases hclosed.symm.trans he
  · cases hclosed.symm.trans he
    obtain rfl : .expectedClosingParen = cause := hcause
    obtain rfl : .atEnd = location := hlocation
    obtain rfl : line = 2 := hline.2
    exact he'

end Parsing
end LoxExpr
