import LoxExpr.Proofs.Literals
import LoxExpr.Proofs.Modes
import Mathlib.Data.List.Chain
/-!
# Quotes: when a text leaves a string open

Outside comments every quote leads into a string or out of one.  So in a text without two slashes side by side, where no comment
can begin, a string is left open exactly if the number of quotes is odd (`unterminated_iff`).

A tree is written with two quotes for each of its strings, besides those that the strings have themselves, and with slashes
only inside strings or between blanks.
-/
namespace LoxExpr
namespace Segment

/-- **No two slashes stand side by side**, so no comment begins. -/
def NoComment (cs : List Char) : Prop := cs.IsChain fun c d => ¬ (c = '/' ∧ d = '/')

instance (cs : List Char) : Decidable (NoComment cs) := inferInstanceAs (Decidable (List.IsChain _ cs))

section
variable {c : Char} {cs ds : List Char} {ss : List Segment}

theorem noComment_iff : NoComment cs ↔ ¬ "//".toList <:+: cs := by
  rw [NoComment, List.isChain_iff_forall_rel_of_append_cons_cons]
  constructor
  · rintro h ⟨l₁, l₂, hcs⟩
    refine @h '/' '/' l₁ l₂ ?_ ⟨rfl, rfl⟩
    rw [← hcs, List.append_assoc]
    rfl
  · rintro h a b l₁ l₂ rfl ⟨rfl, rfl⟩
    exact h ⟨l₁, l₂, by simp⟩

theorem noComment_of_notMem (h : '/' ∉ cs) : NoComment cs :=
  List.isChain_iff_forall_rel_of_append_cons_cons.2 fun a b l₁ l₂ hcs hab => h (by rw [hcs, hab.1]; simp)

theorem noComment_cons (hc : c ≠ '/') (h : NoComment cs) : NoComment (c :: cs) :=
  List.isChain_cons.2 ⟨fun _ _ hcd => hc hcd.1, h⟩

theorem noComment_append (h : NoComment cs) (hd : c ≠ '/') (h' : NoComment (c :: ds)) : NoComment (cs ++ c :: ds) :=
  List.isChain_append.2 ⟨h, h', fun _ _ _ hy hxy => hd (by cases hy; exact hxy.2)⟩

/-- Where no comment begins, a character leads into a string or out of one exactly if it is a quote. -/
theorem step_of_noComment {m : Mode} (hm : m ≠ .comment) (hc : ¬ (m = .slash ∧ c = '/')) :
    m.step c ≠ .comment ∧ (m.step c = .slash → c = '/') ∧ (m.step c = .string ↔ ¬ (m = .string ↔ c = '"')) := by
  cases m <;> simp only [Mode.step] <;> split_ifs <;> simp_all

theorem reach_of_noComment {m : Mode} (h : NoComment cs) (hm : m ≠ .comment) (hslash : m = .slash → cs.head? ≠ some '/') :
    m.reach cs = .string ↔ (cs.count '"' + if m = .string then 1 else 0) % 2 = 1 := by
  induction cs generalizing m with
  | nil => cases m <;> simp [Mode.reach]
  | cons c cs ih =>
    obtain ⟨hnext, hcs⟩ := List.isChain_cons.1 h
    obtain ⟨hcomment, hbehind, hstring⟩ := step_of_noComment (c := c) hm fun hboth => hslash hboth.1 (congrArg some hboth.2)
    have hrest := ih hcs hcomment fun hs hd => hnext '/' hd ⟨hbehind hs, rfl⟩
    refine hrest.trans ?_
    rw [if_congr hstring rfl rfl, List.count_cons]
    by_cases hc : c = '"'
    · by_cases hm' : m = .string
      · simp [hc, hm']
        omega
      · simp [hc, hm']
    · simp [hc]

/-- **A string is left open exactly if the number of quotes is odd.** -/
theorem unterminated_iff (h : Tokenizes cs ss) (hcs : NoComment cs) :
    (∃ s ∈ ss, s.sort = .error .unterminatedString) ↔ cs.count '"' % 2 = 1 :=
  h.unterminated_iff_reach.trans (reach_of_noComment hcs nofun nofun)

end
end Segment

open Segment (NoComment)

/-! ## The quotes that are written -/

def Value.quotes : Value → Nat
  | string s => s.toList.count '"'
  | _ => 0

/-- The quotes that the strings of a tree have themselves. -/
def Expr.quotes : Expr → Nat
  | literal v => v.quotes
  | group e => e.quotes
  | unary _ _ e => e.quotes
  | binary l _ _ r => l.quotes + r.quotes

theorem Number.plain_of_mem_text {n : Number} (h : n.isNegative = false) {c : Char} (hc : c ∈ n.text.toList) :
    c ≠ '"' ∧ c ≠ '/' := by
  cases n with
  | nan s =>
    obtain rfl : s = false := h
    exact ⟨ne_of_mem_of_not_mem hc (by decide), ne_of_mem_of_not_mem hc (by decide)⟩
  | infinity s =>
    obtain rfl : s = false := h
    exact ⟨ne_of_mem_of_not_mem hc (by decide), ne_of_mem_of_not_mem hc (by decide)⟩
  | finite s m =>
    obtain rfl : s = false := h
    obtain ⟨numeral, htext, -⟩ := exists_numeral m
    rw [htext, String.toList_ofList] at hc
    rcases numeral.isDigit_of_mem_text hc with hdigit | rfl
    · exact ⟨Segment.ne_of_class hdigit (by decide), Segment.ne_of_class hdigit (by decide)⟩
    · decide

theorem Number.plain_of_mem_literalSource {n : Number} {c : Char} (hc : c ∈ (Expr.literalSource (.number n)).toList) :
    c ≠ '"' ∧ c ≠ '/' := by
  by_cases hn : n.isNegative = true
  · rw [Expr.toList_literalSource_negative hn] at hc
    simp only [List.mem_cons, List.mem_append, List.not_mem_nil, or_false] at hc
    rcases hc with rfl | (hc | hc) | rfl
    · decide
    · obtain rfl : c = '-' := by simpa [UnaryOp.text, UnaryOp.symbol, Symbol.spelling] using hc
      decide
    · exact plain_of_mem_text (by rw [isNegative_neg, hn]; rfl) hc
    · decide
  · rw [Bool.not_eq_true] at hn
    rw [Expr.literalSource_nonnegative hn] at hc
    exact plain_of_mem_text hn hc

theorem Value.count_quote_literalSource (v : Value) : (Expr.literalSource v).toList.count '"' % 2 = v.quotes % 2 := by
  cases v with
  | number n => rw [List.count_eq_zero.2 fun hq => (Number.plain_of_mem_literalSource hq).1 rfl]; rfl
  | string s =>
    have hcount : ('"' :: (s.toList ++ ['"'])).count '"' = s.toList.count '"' + 2 := by simp [List.count_append]
    rw [Expr.toList_literalSource_string, quotes, hcount, Nat.add_mod_right]
  | bool b => cases b <;> decide
  | nil => decide

theorem Expr.count_quote_sourceText (e : Expr) : e.sourceText.toList.count '"' % 2 = e.quotes % 2 := by
  induction e with
  | literal v => exact v.count_quote_literalSource
  | group e ih =>
    rw [toList_sourceText_group, quotes, ← ih]
    simp [List.count_append]
  | unary op t e ih =>
    have hop : op.text.toList.count '"' = 0 := by cases op <;> decide
    rw [toList_sourceText_unary, quotes, ← ih]
    simp [List.count_append, hop]
  | binary l op t r ihl ihr =>
    have hop : op.text.toList.count '"' = 0 := by cases op <;> decide
    have hcount : (binary l op t r).sourceText.toList.count '"' =
        l.sourceText.toList.count '"' + r.sourceText.toList.count '"' := by
      rw [toList_sourceText_binary]
      simp [List.count_append, hop]
    rw [hcount, quotes, Nat.add_mod, ihl, ihr, ← Nat.add_mod]

/-- No string of a tree has two slashes side by side. -/
def Expr.NoComments (e : Expr) : Prop := ∀ s, Value.string s ∈ e.literals → ¬ "//".toList <:+: s.toList

theorem Expr.noComment_sourceText {e : Expr} (h : e.NoComments) : NoComment e.sourceText.toList := by
  induction e with
  | literal v =>
    cases v with
    | number n => exact Segment.noComment_of_notMem fun hslash => (Number.plain_of_mem_literalSource hslash).2 rfl
    | string s =>
      have hs : NoComment s.toList := Segment.noComment_iff.2 (h s (List.mem_singleton_self _))
      have htext : (literal (.string s)).sourceText.toList = '"' :: (s.toList ++ ['"']) := toList_literalSource_string s
      rw [htext]
      exact Segment.noComment_cons (by decide) (Segment.noComment_append hs (by decide) (List.isChain_singleton _))
    | bool b => cases b <;> exact Segment.noComment_of_notMem (by decide)
    | nil => exact Segment.noComment_of_notMem (by decide)
  | group e ih =>
    rw [toList_sourceText_group]
    exact Segment.noComment_cons (by decide) (Segment.noComment_append (ih h) (by decide) (List.isChain_singleton _))
  | unary op t e ih =>
    have hclosed := Segment.noComment_append (ih h) (c := ')') (by decide) (List.isChain_singleton _)
    rw [toList_sourceText_unary]
    cases op <;> exact Segment.noComment_cons (by decide) (Segment.noComment_cons (by decide) hclosed)
  | binary l op t r ihl ihr =>
    have hl := ihl fun s hs => h s (List.mem_append_left _ hs)
    have hr := ihr fun s hs => h s (List.mem_append_right _ hs)
    have hop : NoComment op.text.toList := by cases op <;> decide
    have hright := Segment.noComment_append hop (c := ' ') (by decide) (Segment.noComment_cons (by decide) hr)
    have hboth := Segment.noComment_append hl (c := ' ') (by decide) (Segment.noComment_cons (by decide) hright)
    rw [toList_sourceText_binary]
    exact Segment.noComment_cons (by decide) (Segment.noComment_append hboth (by decide) (List.isChain_singleton _))

/-- **A tree is written with a string left open exactly if the quotes of its strings are odd in number.** -/
theorem Expr.unterminated_sourceText_iff {e : Expr} (h : e.NoComments) :
    LexError.Cause.unterminatedString ∈ (Scan.ofText e.sourceText).errors.map LexError.cause ↔ e.quotes % 2 = 1 := by
  have ht := Segment.tokenizes_split e.sourceText.toList
  rw [Scan.ofText, Scan.mem_errors_ofSegments_iff, Segment.unterminated_iff ht (noComment_sourceText h), e.count_quote_sourceText]

end LoxExpr
