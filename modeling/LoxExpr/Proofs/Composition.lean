import LoxExpr.Proofs.Safety
import LoxExpr.Proofs.SourceText
/-!
# Composition: runs of a text that is put together from others

Two texts that are expressions, each in parentheses with a line end behind it, are an expression again when an operator is put
between them, whatever they are: the line end closes a comment (`Seams`), the parentheses close what is inside to the
precedence of the operator, and all that the second text notices is that it stands some lines further down (`Lines`).  It
costs five units more than the dearer of the two, four for a group and one for a link.

So the run of such a text does what the operator does with the values of its parts, the first of which is asked first
(`Run.ofText_composed`).
-/
namespace LoxExpr

open Grammar (Derives Denotes)
open Parsing (greatestWord asked)
open Scan (ofChars behind)

theorem Parsing.ofTokens_closed_iff {budget line : Nat} {us : List Token} {e : Expr} (h : ∀ u ∈ us, u.kind ≠ .eof) :
    Expr.ofTokens budget (us ++ [Token.eof line]) = .ok e ↔ Derives (.layer .equality) us e ∧ e.need ≤ budget := by
  rw [ofTokens_eq_ok_iff_derives]
  constructor
  · rintro ⟨u, rest, ht, hend, hd, hneed⟩
    -- what the tree is made of holds no closing token, and what follows it begins with one
    rcases List.append_eq_append_iff.1 ht with ⟨v, rfl, hv⟩ | ⟨v, rfl, rfl⟩
    · cases v with
      | nil => rw [List.append_nil] at hd; exact ⟨hd, hneed⟩
      | cons t v =>
        obtain ⟨rfl, -⟩ := List.cons.inj hv
        exact absurd rfl (hd.kind_ne_eof (Token.eof line) (by simp))
    · cases v with
      | nil => rw [List.append_nil]; exact ⟨hd, hneed⟩
      | cons t v => exact absurd (hend t rfl) (h t (by simp))
  · rintro ⟨hd, hneed⟩
    exact ⟨us, _, rfl, fun t ht => (by cases ht; rfl), hd, hneed⟩

/-! ## Texts that are expressions -/

/-- **A text that is an expression** within a budget. -/
structure IsExpression (budget : Nat) (cs : List Char) (e : Expr) : Prop where
  tokens : ∃ us, ofChars 1 cs = ⟨us ++ [Token.eof (1 + cs.count '\n')], []⟩ ∧ Derives (.layer .equality) us e
  need_le : e.need ≤ budget

/-- What a run is that reports nothing but a failed evaluation: what the evaluation comes to. -/
def Run.Settles (run : Run) : Except Stop Value → Prop
  | .ok v => run.outcome = .value v ∧ run.diagnostics = .empty
  | .error (.failed err) => run.outcome = .rejected ∧ run.diagnostics = ⟨[.runtime err]⟩
  | .error (.misused _) => False

theorem Run.Settles.unique {run : Run} {x y : Except Stop Value} (hx : run.Settles x) (hy : run.Settles y) : x = y := by
  rcases x with (err | m) | v
  · rcases y with (err' | m') | w
    · have := hx.2.symm.trans hy.2
      cases this
      rfl
    · cases hy
    · cases hx.1.symm.trans hy.1
  · cases hx
  · rcases y with (err' | m') | w
    · cases hx.1.symm.trans hy.1
    · cases hy
    · cases hx.1.symm.trans hy.1
      rfl

theorem Run.Settles.hadError_eq_false {run : Run} {x : Except Stop Value} (h : run.Settles x) :
    run.diagnostics.hadError = false := by
  rcases x with (err | m) | v
  · rw [h.2]; rfl
  · cases h
  · rw [h.2]; rfl

section
variable {budget : Nat} {source : String} {cs ds : List Char} {e e' : Expr}

/-- A run without a static error is that of an expression. -/
theorem Run.exists_isExpression (h : (ofText budget source .empty).diagnostics.hadError = false) :
    ∃ e, IsExpression budget source.toList e := by
  have hread : ∀ e, (Scan.ofText source).errors = [] → Expr.ofTokens budget (Scan.ofText source).tokens = .ok e →
      IsExpression budget source.toList e := by
    intro e herrors hparse
    have hclean : (ofChars 1 source.toList).errors = [] := herrors
    obtain ⟨us, hus, -⟩ := Scan.exists_ofChars_append_newline hclean
    have hne : ∀ u ∈ us, u.kind ≠ .eof := fun u => Scan.kind_ne_eof_of_mem (congrArg Scan.tokens hus)
    rw [show Scan.ofText source = ofChars 1 source.toList from rfl, hus, Parsing.ofTokens_closed_iff hne] at hparse
    exact ⟨⟨us, hus, hparse.1⟩, hparse.2⟩
  obtain ⟨outcome, events, new, hgoes⟩ := exists_goes budget source .empty
  rw [hgoes.ofText_eq, Diagnostics.hadError_reportAll] at h
  cases hgoes with
  | unparsed => simp [Diagnostic.isStatic] at h
  | withheld _ hstatic =>
    rw [Scan.any_isStatic_diagnostics] at h
    rcases hstatic with hs | hs
    · cases hs
    · simp [hs] at h
  | yields hparse _ herrors _ => exact ⟨_, hread _ herrors hparse⟩
  | fails hparse _ herrors _ => exact ⟨_, hread _ herrors hparse⟩

/-- **The run of an expression is its evaluation.** -/
theorem IsExpression.settles (h : IsExpression budget source.toList e) :
    (Run.ofText budget source .empty).Settles e.evaluate := by
  obtain ⟨us, hus, hd⟩ := h.tokens
  have hscan : Scan.ofText source = ⟨us ++ [Token.eof (1 + source.toList.count '\n')], []⟩ := hus
  have hne : ∀ u ∈ us, u.kind ≠ .eof := fun u => Scan.kind_ne_eof_of_mem (congrArg Scan.tokens hus)
  have hparse : Expr.ofTokens budget (Scan.ofText source).tokens = .ok e := by
    rw [hscan]
    exact (Parsing.ofTokens_closed_iff hne).2 ⟨hd, h.need_le⟩
  have herrors : (Scan.ofText source).errors = [] := by rw [hscan]
  cases heval : e.evaluate with
  | ok v =>
    have hgoes : Run.Goes budget source .empty _ _ _ := .yields hparse rfl herrors heval
    rw [hgoes.ofText_eq]
    exact ⟨rfl, rfl⟩
  | error stop =>
    cases stop with
    | failed err =>
      have hgoes : Run.Goes budget source .empty _ _ _ := .fails hparse rfl herrors heval
      rw [hgoes.ofText_eq]
      exact ⟨rfl, rfl⟩
    | misused m => exact absurd heval (e.evaluate_ne_misused m)

/-! ## In parentheses -/

/-- A text in parentheses, with a line end behind it. -/
def grouped (cs : List Char) : List Char := '(' :: (cs ++ ['\n', ')'])

theorem scansAs_grouped {line line' : Nat} {us : List Token} (h : ofChars line cs = ⟨us ++ [Token.eof line'], []⟩) :
    ScansAs line (line' + 1) (grouped cs)
      (Symbol.leftParen.token line :: (us ++ [Symbol.rightParen.token (line' + 1)])) := by
  intro rest hrest
  obtain ⟨-, hbehind⟩ := Scan.ofChars_append_newline h
  have hclose : ∀ line', ofChars line' (')' :: rest) = behind [Symbol.rightParen.token line'] (ofChars line' rest) :=
    Scan.ofChars_symbol .rightParen hrest.endsSymbol
  have htext : grouped cs ++ rest = '(' :: (cs ++ '\n' :: ')' :: rest) := by simp [grouped]
  rw [htext, Scan.ofChars_opening, hbehind, hclose, Scan.behind_behind, Scan.behind_behind]
  rfl

theorem opens_grouped (cs : List Char) : Opens (grouped cs) := opens_paren _

/-- An expression in parentheses, `k` lines further down, is written for its group. -/
theorem IsExpression.writtenFor_grouped (h : IsExpression budget cs e) (k : Nat) :
    WrittenFor (1 + k) (1 + k + cs.count '\n' + 1) (grouped cs) (.group (e.down k)) := by
  obtain ⟨us, hus, hd⟩ := h.tokens
  refine ⟨opens_grouped cs, _, .group rfl hd.down rfl, scansAs_grouped ?_⟩
  rw [ofChars, Scan.ofSegments_down, ← ofChars, hus, Nat.add_right_comm]
  simp [Scan.down, Token.down, Token.eof]

/-- A text that is scanned to the tokens of a tree, whatever closes it, is that tree. -/
theorem isExpression_of_scansAs {line : Nat} {us : List Token} (h : ScansAs 1 line cs us)
    (hd : Derives (.layer .equality) us e) (hneed : e.need ≤ budget) : IsExpression budget cs e := by
  have hscan := h.ofChars_eq
  obtain ⟨rfl, -⟩ := Scan.ofChars_append_newline hscan
  exact ⟨⟨us, hscan, hd⟩, hneed⟩

theorem Expr.isExpression_sourceText (h : e.HasSource) (hneed : (e.reparsed 1).need ≤ budget) :
    IsExpression budget e.sourceText.toList (e.reparsed 1) := by
  obtain ⟨u, hd, hs⟩ := (e.writtenFor h 1).tokens
  exact isExpression_of_scansAs hs ((Derives.primary hd).layer_of_unary _) hneed

theorem IsExpression.binary (h : IsExpression budget cs e) (h' : IsExpression budget ds e') (op : BinaryOp) :
    IsExpression (budget + 5) (grouped cs ++ ' ' :: (op.text.toList ++ ' ' :: grouped ds))
      (.binaryAt (.group e) op (.group (e'.down (cs.count '\n' + 1))) (cs.count '\n' + 2)) := by
  have hfirst : WrittenFor 1 (cs.count '\n' + 2) (grouped cs) (.group e) := by
    simpa [Nat.add_comm 1] using h.writtenFor_grouped 0
  obtain ⟨u, hd, hs⟩ := hfirst.tokens
  have hsecond := h'.writtenFor_grouped (cs.count '\n' + 1)
  rw [Nat.add_comm 1] at hsecond
  obtain ⟨v, hd', hs'⟩ := hsecond.tokens
  refine isExpression_of_scansAs (hs.link op.symbol hsecond.opens hs') (hd.link_primaries op hd' _) ?_
  have hneed := h.need_le
  have hneed' := h'.need_le
  simp only [Expr.binaryAt, Expr.need, Expr.chainLength, Expr.need_down]
  omega

theorem IsExpression.unary (h : IsExpression budget cs e) (op : UnaryOp) :
    IsExpression (budget + 5) (op.text.toList ++ grouped cs) (.unaryAt op (.group e) 1) := by
  have hgroup : WrittenFor 1 (cs.count '\n' + 2) (grouped cs) (.group e) := by
    simpa [Nat.add_comm 1] using h.writtenFor_grouped 0
  obtain ⟨u, hd, hs⟩ := hgroup.tokens
  refine isExpression_of_scansAs (hs.withSymbol op.symbol hgroup.opens) (hd.withPrefix_primary op 1) ?_
  have hneed := h.need_le
  simp only [Expr.unaryAt, Expr.need]
  omega

end

/-! ## Whole texts -/

def BinaryOp.composed (op : BinaryOp) (s₁ s₂ : String) : String := "(" ++ s₁ ++ "\n) " ++ op.text ++ " (" ++ s₂ ++ "\n)"

def UnaryOp.composed (op : UnaryOp) (s : String) : String := op.text ++ "(" ++ s ++ "\n)"

theorem BinaryOp.toList_composed (op : BinaryOp) (s₁ s₂ : String) : (op.composed s₁ s₂).toList =
    grouped s₁.toList ++ ' ' :: (op.text.toList ++ ' ' :: grouped s₂.toList) := by
  simp [composed, grouped]

theorem UnaryOp.toList_composed (op : UnaryOp) (s : String) : (op.composed s).toList = op.text.toList ++ grouped s.toList := by
  simp [composed, grouped]

theorem BinaryOp.length_composed_le (op : BinaryOp) (s₁ s₂ : String) : (op.composed s₁ s₂).length ≤ s₁.length + s₂.length + 10 := by
  have hop : op.text.length ≤ 2 := by cases op <;> decide
  rw [← String.length_toList, op.toList_composed]
  simp only [grouped, List.length_append, List.length_cons, List.length_nil, String.length_toList]
  omega

theorem UnaryOp.length_composed_le (op : UnaryOp) (s : String) : (op.composed s).length ≤ s.length + 4 := by
  have hop : op.text.length ≤ 1 := by cases op <;> decide
  rw [← String.length_toList, op.toList_composed]
  simp only [grouped, List.length_append, List.length_cons, List.length_nil, String.length_toList]
  omega

namespace Run

/-- **Runs compose.**  Let two texts be without static errors within a budget.  Put in parentheses, with a line end behind each
and any binary operator between them, they run within five units more as the operator does on their values: a failure of the
first text is reported as it is, and otherwise one of the second as many lines further down as there are above it.  The same
holds of a unary operator in front of one text.  No sum of a depth and a charge leaves the words. -/
theorem ofText_composed (budget : Nat) (s₁ s₂ : String) (hs₁ : s₁.length < 0x1000000000000000)
    (hs₂ : s₂.length < 0x1000000000000000) (h₁ : (ofText budget s₁ .empty).diagnostics.hadError = false)
    (h₂ : (ofText budget s₂ .empty).diagnostics.hadError = false) :
    ∃ x₁ x₂, (ofText budget s₁ .empty).Settles x₁ ∧ (ofText budget s₂ .empty).Settles x₂ ∧
      (∀ op : BinaryOp, (ofText (budget + 5) (op.composed s₁ s₂) .empty).Settles (do
          let v ← x₁
          let w ← x₂.mapError (Stop.down (s₁.toList.count '\n' + 1))
          op.apply (op.token (s₁.toList.count '\n' + 2)) v w) ∧
        asked (budget + 5) (Scan.ofText (op.composed s₁ s₂)).tokens ≤ greatestWord) ∧
      ∀ op : UnaryOp, (ofText (budget + 5) (op.composed s₁) .empty).Settles (do
          let v ← x₁
          op.apply (op.token 1) v) ∧
        asked (budget + 5) (Scan.ofText (op.composed s₁)).tokens ≤ greatestWord := by
  obtain ⟨e₁, he₁⟩ := exists_isExpression h₁
  obtain ⟨e₂, he₂⟩ := exists_isExpression h₂
  refine ⟨e₁.evaluate, e₂.evaluate, he₁.settles, he₂.settles, fun op => ⟨?_, asked_ofText_le ?_ _⟩,
    fun op => ⟨?_, asked_ofText_le ?_ _⟩⟩
  · have h := he₁.binary he₂ op
    rw [← op.toList_composed] at h
    rw [← Expr.evaluate_down]
    exact h.settles
  · have := op.length_composed_le s₁ s₂
    omega
  · have h := he₁.unary op
    rw [← op.toList_composed] at h
    exact h.settles
  · have := op.length_composed_le s₁
    omega

/-- The first text has two lines, so the second one fails on the third line of both. -/
theorem ofText_equal_composed :
    "\"\n\"".length < 0x1000000000000000 ∧ "(-true)".length < 0x1000000000000000 ∧
      (ofText 10 "\"\n\"" .empty).diagnostics.hadError = false ∧ (ofText 10 "(-true)" .empty).diagnostics.hadError = false ∧
      (ofText 15 "(\"\n\"\n) == ((-true)\n)" .empty).diagnostics =
        ⟨[.runtime ⟨.operandMustBeNumber, UnaryOp.token .negate 3⟩]⟩ := by
  have hs₁ : "\"\n\"".length < 0x1000000000000000 := by decide
  have hs₂ : "(-true)".length < 0x1000000000000000 := by decide
  have he₁ : IsExpression 10 "\"\n\"".toList (.literal (.string "\n")) :=
    Expr.isExpression_sourceText (e := .literal (.string "\n")) (by decide : '"' ∉ "\n".toList) (by decide)
  have he₂ : IsExpression 10 "(-true)".toList (.group (.unaryAt .negate (.literal (.bool true)) 1)) :=
    Expr.isExpression_sourceText (e := .unaryAt .negate (.literal (.bool true)) 1) trivial (by decide)
  have h₁ := he₁.settles.hadError_eq_false
  have h₂ := he₂.settles.hadError_eq_false
  obtain ⟨x₁, x₂, hx₁, hx₂, hbinary, -⟩ := ofText_composed 10 "\"\n\"" "(-true)" hs₁ hs₂ h₁ h₂
  obtain rfl := hx₁.unique he₁.settles
  obtain rfl := hx₂.unique he₂.settles
  exact ⟨hs₁, hs₂, h₁, h₂, (hbinary .equal).1.2⟩

end Run
end LoxExpr
