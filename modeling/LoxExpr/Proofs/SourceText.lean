import LoxExpr.Proofs.Acceptance
import LoxExpr.Proofs.Outcome
import LoxExpr.Proofs.Pieces
/-!
# Source text is read back

A tree whose numbers are finite and whose strings have no quote (`Expr.HasSource`) is written as a text that is read back, but
not as the same tree: every operator node comes back in a group, a negative number as the negation of its opposite, and the
operators carry tokens of the text (`Expr.reparsed`).

The proof goes along the tree.  What is written for a subtree is scanned to tokens of its own whatever closes it
(`ScansAs`), and those tokens derive the reparsed tree as a primary, since each operator node stands in parentheses.  So no
chain is longer than one link, five units of depth for every node are enough (`need_reparsed_le`), and evaluation meets the
same values in the same order (`outcome_reparsed`).
-/
namespace LoxExpr

open Grammar (Derives Denotes)
open Parsing (Rule AtEnd)
open Scan (ofChars behind)
open Segment (EndsPiece EndsSymbol)

/-! ## Trees with a source text, and what comes back -/

/-- A literal that can be written: a finite number, a string without a quote, a boolean or `nil`. -/
def Value.HasSource : Value → Prop
  | number n => n.isFinite = true
  | string s => '"' ∉ s.toList
  | _ => True

/-- **A tree that can be written.**  Its operator tokens do not matter. -/
def Expr.HasSource : Expr → Prop
  | literal v => v.HasSource
  | group e => e.HasSource
  | unary _ _ e => e.HasSource
  | binary l _ _ r => l.HasSource ∧ r.HasSource

def Value.lineEnds : Value → Nat
  | string s => s.toList.count '\n'
  | _ => 0

/-- The line ends that are written with a tree; they all stand in its strings. -/
def Expr.lineEnds : Expr → Nat
  | literal v => v.lineEnds
  | group e => e.lineEnds
  | unary _ _ e => e.lineEnds
  | binary l _ _ r => l.lineEnds + r.lineEnds

/-- A literal as it comes back from `line`. -/
def Value.reparsed (line : Nat) : Value → Expr
  | number n => if n.isNegative then .group (.unaryAt .negate (.literal (number n.neg)) line) else .literal (number n)
  | v => .literal v

/-- **The tree that comes back** from a text that begins on `line`: operator nodes in groups, negative numbers as negations,
and each operator with its own token, on the line that the strings written before it have led to. -/
def Expr.reparsed (line : Nat) : Expr → Expr
  | literal v => v.reparsed line
  | group e => group (e.reparsed line)
  | unary op _ e => group (unaryAt op (e.reparsed line) line)
  | binary l op _ r =>
    group (binaryAt (l.reparsed line) op (r.reparsed (line + l.lineEnds)) (line + l.lineEnds))

theorem Value.reparsed_cases (v : Value) (line : Nat) : v.reparsed line = .literal v ∨
    ∃ n, v = number n ∧ v.reparsed line = .group (.unaryAt .negate (.literal (number n.neg)) line) := by
  cases v with
  | number n =>
    by_cases hn : n.isNegative = true
    · exact .inr ⟨n, rfl, if_pos hn⟩
    · exact .inl (if_neg hn)
  | _ => exact .inl rfl

/-! ## The characters that are written -/

theorem Expr.toList_literalSource_string (s : String) : (literalSource (.string s)).toList = '"' :: (s.toList ++ ['"']) := by
  simp [literalSource, String.toList_append]

theorem Expr.literalSource_nonnegative {n : Number} (h : n.isNegative = false) : literalSource (.number n) = n.text := by
  simp [literalSource, h]

/-- A negative number is written like the negation of its opposite. -/
theorem Expr.toList_literalSource_negative {n : Number} (h : n.isNegative = true) :
    (literalSource (.number n)).toList = '(' :: (UnaryOp.negate.text.toList ++ n.neg.text.toList ++ [')']) := by
  simp [literalSource, h, String.toList_append, UnaryOp.text, UnaryOp.symbol, Symbol.spelling]

theorem Expr.toList_sourceText_group (e : Expr) : (group e).sourceText.toList = '(' :: (e.sourceText.toList ++ [')']) := by
  simp [sourceText, String.toList_append]

theorem Expr.toList_sourceText_unary (op : UnaryOp) (t : Token) (e : Expr) :
    (unary op t e).sourceText.toList = '(' :: (op.text.toList ++ e.sourceText.toList ++ [')']) := by
  simp [sourceText, String.toList_append]

theorem Expr.toList_sourceText_binary (l : Expr) (op : BinaryOp) (t : Token) (r : Expr) :
    (binary l op t r).sourceText.toList =
      '(' :: (l.sourceText.toList ++ ' ' :: (op.text.toList ++ ' ' :: r.sourceText.toList) ++ [')']) := by
  simp [sourceText, String.toList_append]

/-! ## What is written is scanned piece by piece -/

/-- **The text `cs` becomes the tokens `u`** between two lines, whatever closes it. -/
def ScansAs (line line' : Nat) (cs : List Char) (u : List Token) : Prop :=
  ∀ rest, EndsPiece rest → ofChars line (cs ++ rest) = behind u (ofChars line' rest)

/-- The scan of a text that nothing follows. -/
theorem ScansAs.ofChars_eq {line line' : Nat} {cs : List Char} {u : List Token} (h : ScansAs line line' cs u) :
    ofChars line cs = ⟨u ++ [Token.eof line'], []⟩ := by
  have hs := h [] Segment.endsPiece_nil
  rw [List.append_nil, Scan.ofChars_nil] at hs
  exact hs

/-- What may stand behind an operator or a blank without becoming a part of it. -/
def Opens (cs : List Char) : Prop := ∃ c cs', cs = c :: cs' ∧ (c ≠ '=' ∧ c ≠ '/') ∧ Segment.isBlank c = false

section
variable {line line₁ line₂ : Nat} {cs ds rest : List Char} {u v : List Token}

theorem Opens.endsSymbol (h : Opens cs) (rest : List Char) : EndsSymbol (cs ++ rest) := by
  obtain ⟨c, cs', rfl, hc, -⟩ := h
  exact Segment.endsSymbol_cons hc

theorem Opens.not_isBlank (h : Opens cs) (rest : List Char) : ∀ d, (cs ++ rest).head? = some d → Segment.isBlank d = false := by
  obtain ⟨c, cs', rfl, -, hc⟩ := h
  intro d hd
  cases hd
  exact hc

theorem Opens.append (h : Opens cs) (ds : List Char) : Opens (cs ++ ds) := by
  obtain ⟨c, cs', rfl, hc⟩ := h
  exact ⟨c, cs' ++ ds, rfl, hc⟩

theorem Opens.behind_symbol (y : Symbol) (h : Opens cs) (line : Nat) (rest : List Char) :
    ofChars line (y.spelling.toList ++ cs ++ rest) = behind [y.token line] (ofChars line (cs ++ rest)) := by
  rw [List.append_assoc, Scan.ofChars_symbol y (h.endsSymbol rest)]

theorem ScansAs.withSymbol (y : Symbol) (hcs : Opens cs) (h : ScansAs line line₁ cs u) :
    ScansAs line line₁ (y.spelling.toList ++ cs) (y.token line :: u) := by
  intro rest hrest
  rw [hcs.behind_symbol y, h rest hrest, Scan.behind_behind]
  rfl

/-- An operator behind an operand, with a blank on both sides. -/
theorem ScansAs.before_operand (y : Symbol) (h : ScansAs line line₁ cs u) (hds : Opens ds) (rest : List Char) :
    ofChars line (cs ++ ' ' :: (y.spelling.toList ++ ' ' :: ds) ++ rest) =
      behind (u ++ [y.token line₁]) (ofChars line₁ (ds ++ rest)) := by
  have hy : ∀ d, (y.spelling.toList ++ ' ' :: (ds ++ rest)).head? = some d → Segment.isBlank d = false := by
    obtain ⟨c, cs, hs, -, -, hc, -⟩ := Segment.symbol_spelling_eq y
    rw [hs]
    intro d hd
    cases hd
    exact hc
  have hblank : EndsSymbol (' ' :: (ds ++ rest)) := Segment.endsSymbol_cons (by decide)
  rw [List.append_assoc, List.cons_append, List.append_assoc, List.cons_append, h _ (Segment.endsPiece_cons (.inl rfl)),
    Scan.ofChars_blank hy, Scan.ofChars_symbol y hblank, Scan.ofChars_blank (hds.not_isBlank rest), Scan.behind_behind]

theorem ScansAs.link (y : Symbol) (h : ScansAs line line₁ cs u) (hds : Opens ds) (h' : ScansAs line₁ line₂ ds v) :
    ScansAs line line₂ (cs ++ ' ' :: (y.spelling.toList ++ ' ' :: ds)) (u ++ y.token line₁ :: v) := by
  intro rest hrest
  rw [h.before_operand y hds, h' rest hrest, Scan.behind_behind, List.append_assoc, List.singleton_append]

theorem ScansAs.group (hcs : Opens cs) (h : ScansAs line line₁ cs u) :
    ScansAs line line₁ ('(' :: (cs ++ [')']))
      (Symbol.leftParen.token line :: (u ++ [Symbol.rightParen.token line₁])) := by
  intro rest hrest
  have htext : '(' :: (cs ++ [')']) ++ rest = Symbol.leftParen.spelling.toList ++ (cs ++ ')' :: rest) := by
    rw [List.cons_append, List.append_assoc]
    rfl
  have hclose : ofChars line₁ (')' :: rest) = behind [Symbol.rightParen.token line₁] (ofChars line₁ rest) :=
    Scan.ofChars_symbol .rightParen hrest.endsSymbol line₁
  rw [htext, Scan.ofChars_symbol .leftParen (hcs.endsSymbol _), h _ (Segment.endsPiece_cons (.inr rfl)), hclose,
    Scan.behind_behind, Scan.behind_behind]
  rfl

theorem opens_paren (cs : List Char) : Opens ('(' :: cs) := ⟨'(', cs, rfl, by decide, by decide⟩

theorem UnaryOp.opens_text (op : UnaryOp) (cs : List Char) : Opens (op.text.toList ++ cs) := by
  cases op <;> exact ⟨_, _, rfl, by decide, by decide⟩

/-- A prefix operator in front of its operand, in a group. -/
theorem ScansAs.unary (op : UnaryOp) (hcs : Opens cs) (h : ScansAs line line₁ cs u) :
    ScansAs line line₁ ('(' :: (op.text.toList ++ cs ++ [')']))
      (Symbol.leftParen.token line :: (op.token line :: u ++ [Symbol.rightParen.token line₁])) := by
  exact (h.withSymbol op.symbol hcs).group (op.opens_text cs)

/-- An operator between its operands, in a group. -/
theorem ScansAs.binary (op : BinaryOp) (hcs : Opens cs) (h : ScansAs line line₁ cs u) (hds : Opens ds)
    (h' : ScansAs line₁ line₂ ds v) : ScansAs line line₂ ('(' :: (cs ++ ' ' :: (op.text.toList ++ ' ' :: ds) ++ [')']))
      (Symbol.leftParen.token line :: (u ++ op.token line₁ :: v ++ [Symbol.rightParen.token line₂])) := by
  exact (h.link op.symbol hds h').group (hcs.append _)

theorem opens_numeral (n : Numeral) : Opens n.text := by
  obtain ⟨c, cs, hw, hc, -⟩ := n.whole_eq
  refine ⟨c, cs ++ n.fraction, by rw [Numeral.text, hw, List.cons_append], ⟨?_, ?_⟩, ?_⟩
  · exact Segment.ne_of_class hc (by decide)
  · exact Segment.ne_of_class hc (by decide)
  · exact Segment.isBlank_eq_false_of_class hc (by decide) (by decide) (by decide)

end

/-! ## The tokens of a tree -/

/-- Operands that stand alone are linked by an operator of any layer. -/
theorem Grammar.Derives.link_primaries {u v : List Token} {l r : Expr} (h : Derives .primary u l) (op : BinaryOp)
    (h' : Derives .primary v r) (line : Nat) :
    Derives (.layer .equality) (u ++ op.token line :: v) (.binaryAt l op r line) := by
  have hlink : Derives (.layer op.layer) (u ++ op.token line :: v) (.binaryAt l op r line) :=
    .link ((Derives.primary h).layer_of_unary _) (Grammar.mem_operators_iff.2 ⟨rfl, rfl⟩) rfl
      ((Derives.primary h').operand_of_unary _)
  exact hlink.equality_of_layer

theorem Grammar.Derives.withPrefix_primary {u : List Token} {e : Expr} (h : Derives .primary u e) (op : UnaryOp) (line : Nat) :
    Derives (.layer .equality) (op.token line :: u) (.unaryAt op e line) := by
  have hunary : Derives .unary (op.token line :: u) (.unaryAt op e line) :=
    .withPrefix (Grammar.mem_prefixes_iff.2 rfl) rfl (.primary h)
  exact hunary.layer_of_unary _

/-- A text that is read back as the tree `e`, which is a primary there. -/
structure WrittenFor (line line' : Nat) (cs : List Char) (e : Expr) : Prop where
  opens : Opens cs
  tokens : ∃ u, Derives .primary u e ∧ ScansAs line line' cs u

section
variable {line line₁ line₂ : Nat} {cs ds : List Char} {e l r : Expr}

theorem WrittenFor.group (h : WrittenFor line line₁ cs e) : WrittenFor line line₁ ('(' :: (cs ++ [')'])) (.group e) := by
  obtain ⟨u, hd, hs⟩ := h.tokens
  exact ⟨opens_paren _, _, .group rfl ((Derives.primary hd).layer_of_unary _) rfl, hs.group h.opens⟩

theorem WrittenFor.unary (op : UnaryOp) (h : WrittenFor line line₁ cs e) :
    WrittenFor line line₁ ('(' :: (op.text.toList ++ cs ++ [')'])) (.group (.unaryAt op e line)) := by
  obtain ⟨u, hd, hs⟩ := h.tokens
  exact ⟨opens_paren _, _, .group rfl (hd.withPrefix_primary op line) rfl, hs.unary op h.opens⟩

theorem WrittenFor.binary (op : BinaryOp) (h : WrittenFor line line₁ cs l) (h' : WrittenFor line₁ line₂ ds r) :
    WrittenFor line line₂ ('(' :: (cs ++ ' ' :: (op.text.toList ++ ' ' :: ds) ++ [')'])) (.group (.binaryAt l op r line₁)) := by
  obtain ⟨u, hd, hs⟩ := h.tokens
  obtain ⟨v, hd', hs'⟩ := h'.tokens
  exact ⟨opens_paren _, _, .group rfl (hd.link_primaries op hd' line₁) rfl, hs.binary op h.opens h'.opens hs'⟩

end

/-! ### Literals -/

theorem writtenFor_number (m : Magnitude) (line : Nat) :
    WrittenFor line line (Number.finite false m).text.toList (.literal (.number (.finite false m))) := by
  obtain ⟨n, htext, hread⟩ := Number.exists_numeral m
  rw [htext, String.toList_ofList]
  refine ⟨opens_numeral n, _, .literal (.number rfl ?_), fun rest hrest => Scan.ofChars_numeral n hrest line⟩
  rw [hread]
  rfl

theorem writtenFor_keyword {k : Keyword} {v : Value} (hv : ∀ t : Token, t.kind = .keyword k → Denotes t v) (line : Nat) :
    WrittenFor line line k.spelling.toList (.literal v) := by
  have hopens : Opens k.spelling.toList := by
    cases k <;> exact ⟨_, _, rfl, by decide, by decide⟩
  exact ⟨hopens, _, .literal (hv _ rfl), fun rest hrest => Scan.ofChars_keyword k hrest line⟩

theorem writtenFor_string {s : String} (h : '"' ∉ s.toList) (line : Nat) :
    WrittenFor line (line + s.toList.count '\n') ('"' :: (s.toList ++ ['"'])) (.literal (.string s)) := by
  refine ⟨⟨'"', _, rfl, by decide, by decide⟩, _, .literal (.string rfl ?_), fun rest _ => Scan.ofChars_quoted h rest line⟩
  rw [String.ofList_toList]

theorem Value.writtenFor {v : Value} (h : v.HasSource) (line : Nat) :
    WrittenFor line (line + v.lineEnds) (Expr.literalSource v).toList (v.reparsed line) := by
  cases v with
  | nil => exact writtenFor_keyword (fun _ => .nilWord) line
  | bool b =>
    cases b with
    | true => exact writtenFor_keyword (fun _ => .trueWord) line
    | false => exact writtenFor_keyword (fun _ => .falseWord) line
  | string s =>
    rw [Expr.toList_literalSource_string]
    exact writtenFor_string h line
  | number n =>
    cases n with
    | nan s => cases h
    | infinity => cases h
    | finite negative m =>
      cases negative with
      | false => exact writtenFor_number m line
      | true =>
        rw [Expr.toList_literalSource_negative rfl]
        exact (writtenFor_number m line).unary .negate

/-! ### Trees -/

/-- **A tree is written for what comes back of it.** -/
theorem Expr.writtenFor (e : Expr) (h : e.HasSource) (line : Nat) :
    WrittenFor line (line + e.lineEnds) e.sourceText.toList (e.reparsed line) := by
  induction e generalizing line with
  | literal v => exact Value.writtenFor h line
  | group e ih =>
    rw [toList_sourceText_group]
    exact (ih h line).group
  | unary op t e ih =>
    rw [toList_sourceText_unary]
    exact (ih h line).unary op
  | binary l op t r ihl ihr =>
    rw [toList_sourceText_binary, lineEnds, ← Nat.add_assoc]
    exact (ihl h.1 line).binary op (ihr h.2 (line + l.lineEnds))

/-! ## What reading it back costs -/

theorem Expr.chainLength_reparsed (e : Expr) (line : Nat) (l : Layer) : (e.reparsed line).chainLength l = 0 := by
  cases e with
  | literal v =>
    rw [reparsed]
    rcases v.reparsed_cases line with h | ⟨n, -, h⟩ <;> rw [h] <;> rfl
  | _ => rfl

theorem Expr.need_reparsed_le (e : Expr) (line : Nat) : (e.reparsed line).need ≤ 5 * e.size := by
  induction e generalizing line with
  | literal v =>
    rw [reparsed]
    rcases v.reparsed_cases line with h | ⟨n, -, h⟩ <;> rw [h]
    · exact Nat.zero_le _
    · exact Nat.le_refl 5
  | group e ih =>
    have := ih line
    simp only [reparsed, need, size]
    omega
  | unary op t e ih =>
    have := ih line
    simp only [reparsed, unaryAt, need, size]
    omega
  | binary l op t r ihl ihr =>
    have hl := ihl line
    have hr := ihr (line + l.lineEnds)
    have hchain := l.chainLength_reparsed line op.layer
    simp only [reparsed, binaryAt, need, size, hchain]
    omega

/-! ## What it is evaluated to -/

/-- **What comes back is evaluated to the same value, or fails for the same reason.** -/
theorem Expr.outcome_reparsed (e : Expr) (line : Nat) : outcome (e.reparsed line).evaluate = outcome e.evaluate := by
  induction e generalizing line with
  | literal v =>
    rw [reparsed]
    rcases v.reparsed_cases line with h | ⟨n, rfl, h⟩
    · rw [h]
    · have hback : (Expr.group (.unaryAt .negate (.literal (.number n.neg)) line)).evaluate = .ok (.number n.neg.neg) := rfl
      rw [h, hback, n.neg_neg]
      rfl
  | group e ih => exact ih line
  | unary op t e ih => exact outcome_bind (ih line) (fun v => op.outcome_apply _ t v)
  | binary l op t r ihl ihr =>
    refine outcome_bind (ihl line) (fun v => ?_)
    exact outcome_bind (ihr (line + l.lineEnds)) (fun w => op.outcome_apply _ t v w)

/-! ## The round trip -/

/-- **Source text is read back.**  The text of a tree is scanned without an error; within five units of depth for every node
its tokens are read as the tree that `reparsed` describes, on lines counted from one; and that tree is evaluated to the same
value, or fails for the same reason. -/
theorem Expr.ofTokens_sourceText (e : Expr) (h : e.HasSource) {budget : Nat} (hbudget : 5 * e.size ≤ budget) :
    (Scan.ofText e.sourceText).errors = [] ∧
      Expr.ofTokens budget (Scan.ofText e.sourceText).tokens = .ok (e.reparsed 1) ∧
      outcome (e.reparsed 1).evaluate = outcome e.evaluate := by
  obtain ⟨u, hd, hs⟩ := (e.writtenFor h 1).tokens
  have hscan : Scan.ofText e.sourceText = ⟨u ++ [Token.eof (1 + e.lineEnds)], []⟩ := hs.ofChars_eq
  have hneed : (e.reparsed 1).need ≤ budget := Nat.le_trans (e.need_reparsed_le 1) hbudget
  have hend : AtEnd [Token.eof (1 + e.lineEnds)] := by
    intro t ht
    cases ht
    rfl
  rw [hscan]
  refine ⟨rfl, ?_, e.outcome_reparsed 1⟩
  exact Parsing.ofTokens_eq_ok_iff_derives.2 ⟨u, _, rfl, hend, (Derives.primary hd).layer_of_unary _, hneed⟩

/-- The sum of a string of two lines and a negative number, under a token that is no operator. -/
def unevenSum : Expr :=
  .binary (.literal (.string "a\nb")) .add (Token.eof 7) (.literal (.number (.finite true ⟨0x4004000000000000, by decide⟩)))

/-- The sum comes back with its operators on the second line. -/
theorem ofTokens_unevenSum :
    unevenSum.HasSource ∧ 5 * unevenSum.size ≤ 15 ∧ (Scan.ofText unevenSum.sourceText).errors = [] ∧
      Expr.ofTokens 15 (Scan.ofText unevenSum.sourceText).tokens =
        .ok (.group (.binaryAt (.literal (.string "a\nb")) .add
          (.group (.unaryAt .negate (.literal (.number (.finite false ⟨0x4004000000000000, by decide⟩))) 2)) 2)) ∧
      outcome unevenSum.evaluate = .error (.inl .operandsMustBeNumbersOrStrings) := by
  have hquote : '"' ∉ "a\nb".toList := by decide
  have hsource : unevenSum.HasSource := ⟨hquote, rfl⟩
  have hsize : 5 * unevenSum.size ≤ 15 := by decide
  obtain ⟨herrors, htokens, -⟩ := unevenSum.ofTokens_sourceText hsource hsize
  exact ⟨hsource, hsize, herrors, htokens, rfl⟩

end LoxExpr
