import LoxExpr.Proofs.Lines
import LoxExpr.Proofs.Tokenization
/-!
# Seams: a text that a line end closes

A line end is a lexeme of its own, and only a string goes over it.  So a text whose strings are all closed is cut alike
whatever follows it on the next line, since no lexeme in front of it becomes longer (`FirstPiece.append_newline`).  Its scan is
then the scan of the text, without the closing token, in front of the scan of what follows (`Scan.ofChars_append_newline`).

An opening parenthesis is a lexeme of its own as well, whatever follows.
-/
namespace LoxExpr
namespace Segment

section
variable {kind : TokenKind} {w cs ds : List Char} {s : Segment} {ss ts : List Segment}

/-- No lexeme in front of a text goes beyond the line end behind it, unless it is a string that the text does not close. -/
theorem prefix_of_prefix_append (hw : w ∈ lexemes kind) (hp : w <+: cs ++ '\n' :: ds) (hcs : cs ≠ [])
    (hquote : ∀ cs', cs = '"' :: cs' → '"' ∈ cs') : w <+: cs := by
  rcases prefix_or_goes_on hp with hp | hline
  · exact hp
  · exfalso
    rcases kind_of_newline_mem hw (hline.subset (by simp)) with rfl | rfl
    · have hone : cs.length + 1 ≤ 1 := by simpa [show w = ['\n'] from hw] using hline.length_le
      have := List.length_pos_of_ne_nil hcs
      omega
    · obtain ⟨c, cs, rfl⟩ := List.exists_cons_of_ne_nil hcs
      obtain ⟨v, -, hv⟩ := mem_string.1 hw
      -- the text ends before the closing quote of the string, so it has no other quote
      obtain rfl : c = '"' := (List.cons_prefix_cons.1 (hv ▸ hline)).1
      exact quote_notMem_of_prefix hw hline (hquote cs rfl)

theorem FirstPiece.append_newline (h : FirstPiece cs s) (hs : s.sort ≠ .error .unterminatedString) (ds : List Char) :
    FirstPiece (cs ++ '\n' :: ds) s := by
  cases h with
  | @lexeme kind w _ h =>
    have hcs : cs ≠ [] := by
      rintro rfl
      exact (FirstPiece.lexeme h).text_ne_nil (List.prefix_nil.1 h.2.1)
    have hquote : ∀ cs', cs = '"' :: cs' → '"' ∈ cs' := by
      rintro cs' rfl
      exact h.mem_of_quote
    obtain ⟨hw, hp, hmax, hkey⟩ := h
    exact .lexeme ⟨hw, hp.trans (List.prefix_append cs _),
      fun kind' w' hw' hp' => hmax kind' w' hw' (prefix_of_prefix_append hw' hp' hcs hquote), hkey⟩
  | unterminated => exact absurd rfl hs
  | unexpected hne hno =>
    refine .unexpected hne fun kind w hw hp => hno kind w hw (prefix_of_prefix_append hw hp (List.cons_ne_nil _ _) ?_)
    rintro cs' hcs
    exact absurd (List.cons.inj hcs).1 hne

theorem Tokenizes.append_newline (h : Tokenizes cs ss) (hss : StringsClosed ss)
    (h' : Tokenizes ds ts) : Tokenizes (cs ++ '\n' :: ds) (ss ++ ⟨.ok .newline, ['\n']⟩ :: ts) := by
  induction h with
  | nil => exact .cons (s := ⟨.ok .newline, ['\n']⟩) rfl (.lexeme (longest_newline ds)) h'
  | cons hcs hp _ ih =>
    refine .cons ?_ (hp.append_newline (hss _ List.mem_cons_self) ds) (ih fun s hs => hss s (List.mem_cons_of_mem _ hs))
    rw [hcs, List.append_assoc]

/-- **A text whose strings are closed is cut alike** in front of a line end. -/
theorem split_append_newline (h : StringsClosed (split cs)) (ds : List Char) :
    split (cs ++ '\n' :: ds) = split cs ++ ⟨.ok .newline, ['\n']⟩ :: split ds :=
  (tokenizes_split _).unique ((tokenizes_split cs).append_newline h (tokenizes_split ds))

theorem split_opening (cs : List Char) : split ('(' :: cs) = ⟨.ok (.symbol .leftParen), ['(']⟩ :: split cs := by
  have hlongest : Longest (.symbol .leftParen) ['('] ('(' :: cs) := by
    refine longest_symbol (w := []) rfl rfl (by simp) ?_
    intro s x hs _
    cases s <;> cases hs
    exact Nat.le_refl 0
  exact split_of_longest hlongest

/-- No piece is empty, so there are no more pieces than characters. -/
theorem length_split_le (cs : List Char) : (split cs).length ≤ cs.length := by
  fun_induction split cs with
  | case1 => exact Nat.le_refl 0
  | case2 c cs ih =>
    rw [List.length_drop] at ih
    simp only [List.length_cons]
    omega

end
end Segment

namespace Scan

open Segment (StringsClosed split)

theorem length_tokens_ofText_le (source : String) : (ofText source).tokens.length ≤ source.length + 1 := by
  have hsplit := Segment.length_split_le source.toList
  have htokens := length_tokens_ofSegments_le 1 (split source.toList)
  rw [String.length_toList] at hsplit
  exact Nat.le_trans htokens (Nat.succ_le_succ hsplit)

/-- **A text whose strings are closed** has the same tokens and errors of its own in front of a line end, and what follows that is
scanned as if it began there. -/
theorem exists_ofChars_seam {line : Nat} {cs : List Char} (h : StringsClosed (split cs)) :
    ∃ us, (ofChars line cs).tokens = us ++ [Token.eof (line + cs.count '\n')] ∧ ∀ rest, ofChars line (cs ++ '\n' :: rest) =
      ⟨us ++ (ofChars (line + cs.count '\n' + 1) rest).tokens,
        (ofChars line cs).errors ++ (ofChars (line + cs.count '\n' + 1) rest).errors⟩ := by
  obtain ⟨us, hus⟩ := exists_ofSegments_append line (split cs)
  rw [Segment.flatMap_split] at hus
  refine ⟨us, ?_, fun rest => ?_⟩
  · have := hus []
    rw [List.append_nil] at this
    exact congrArg Scan.tokens this
  · rw [ofChars, Segment.split_append_newline h, hus]
    rfl

theorem exists_ofChars_append_newline {line : Nat} {cs : List Char} (h : (ofChars line cs).errors = []) :
    ∃ us, ofChars line cs = ⟨us ++ [Token.eof (line + cs.count '\n')], []⟩ ∧
      ∀ rest, ofChars line (cs ++ '\n' :: rest) = behind us (ofChars (line + cs.count '\n' + 1) rest) := by
  have hclosed : StringsClosed (split cs) := by
    intro s hs hsort
    have hmem : LexError.Cause.unterminatedString ∈ (ofChars line cs).errors.map LexError.cause :=
      mem_errors_ofSegments_iff.2 ⟨s, hs, hsort⟩
    rw [h] at hmem
    cases hmem
  obtain ⟨us, htokens, hseam⟩ := @exists_ofChars_seam line cs hclosed
  refine ⟨us, ?_, fun rest => ?_⟩
  · rw [← htokens, ← h]
  · rw [hseam, h]
    rfl

/-- **A text without a fault is scanned alike** in front of a line end. -/
theorem ofChars_append_newline {line line' : Nat} {cs : List Char} {us : List Token}
    (h : ofChars line cs = ⟨us ++ [Token.eof line'], []⟩) : line' = line + cs.count '\n' ∧
      ∀ rest, ofChars line (cs ++ '\n' :: rest) = behind us (ofChars (line' + 1) rest) := by
  obtain ⟨vs, hvs, hbehind⟩ := exists_ofChars_append_newline (congrArg Scan.errors h)
  obtain ⟨rfl, heof⟩ := List.append_inj' (congrArg Scan.tokens (h.symm.trans hvs)) rfl
  obtain rfl : line' = line + cs.count '\n' := congrArg Token.line (List.cons.inj heof).1
  exact ⟨rfl, hbehind⟩

theorem ofChars_opening (line : Nat) (cs : List Char) :
    ofChars line ('(' :: cs) = behind [Symbol.leftParen.token line] (ofChars line cs) :=
  ofChars_of_split_flat (w := ['(']) (Segment.split_opening cs) rfl (by decide) line

end Scan
end LoxExpr
