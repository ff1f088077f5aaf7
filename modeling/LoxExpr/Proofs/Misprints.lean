import LoxExpr.Proofs.Composition
import LoxExpr.Proofs.Quotes
/-!
# Misprints: what is written for a tree that has no source text

A number that is not finite is written as a word, which is in no expression.  A string is written between quotes as it is, so
one with a quote in it ends early, and what stands between its first quote and the next one, its *gap*, is scanned as
text of the language.  In front of the first such string everything is scanned as it was meant.  So the gap comes directly
behind a string, and only an operator may go on from there, however many parentheses are closed before: a text
whose first gap has no character that an operator begins with is rejected (`isRejected_of_gap`).

With such a character it need not be: the string `"+"` of three characters is written as the sum of two empty ones.
-/
namespace LoxExpr

open Grammar (Derives Denotes)
open Parsing (defaultBudget)
open Scan (ofChars behind)
open Segment (lexemes FirstPiece Tokenizes)

/-! ## Neighbours in an expression -/

namespace Grammar

/-- An operand may end with this token. -/
def EndsOperand (t : Token) : Prop := (∃ v, Denotes t v) ∨ t.kind = .symbol .rightParen

/-- What may stand behind an operand: an operator or a closing parenthesis. -/
def GoesOn (t : Token) : Prop := t.kind = .symbol .rightParen ∨ ∃ op : BinaryOp, t.kind = .symbol op.symbol

theorem not_endsOperand {t : Token} {y : Symbol} (h : t.kind = .symbol y) (hy : y ≠ .rightParen) : ¬ EndsOperand t := by
  rintro (⟨v, hv⟩ | hk)
  · have := literalOf?_eq_some_iff.2 hv
    rw [literalOf?_of_symbol h] at this
    cases this
  · rw [h] at hk
    exact hy (by injection hk)

/-- **Behind the end of an operand** an expression has an operator or a closing parenthesis, or it ends. -/
theorem Derives.isChain {r : Parsing.Rule} {u : List Token} {e : Expr} (h : Derives r u e) :
    u.IsChain fun t t' => EndsOperand t → GoesOn t' := by
  induction h with
  | operand _ ih => exact ih
  | @link l u left y op t v right _ hop hk _ ihl ihr =>
    obtain ⟨rfl, -⟩ := mem_operators_iff.1 hop
    have hends : ¬ EndsOperand t := not_endsOperand hk (by cases op <;> decide)
    refine List.isChain_append.2 ⟨ihl, List.isChain_cons.2 ⟨fun _ _ he => absurd he hends, ihr⟩, fun _ _ t' ht' _ => ?_⟩
    cases ht'
    exact .inr ⟨op, hk⟩
  | primary _ ih => exact ih
  | @withPrefix y op t u e hy hk _ ih =>
    obtain rfl := mem_prefixes_iff.1 hy
    have hends : ¬ EndsOperand t := not_endsOperand hk (by cases op <;> decide)
    exact List.isChain_cons.2 ⟨fun _ _ he => absurd he hends, ih⟩
  | literal => exact List.isChain_singleton _
  | @group t u t' e hk _ hk' ih =>
    have hends : ¬ EndsOperand t := not_endsOperand hk (by decide)
    refine List.isChain_cons.2 ⟨fun _ _ he => absurd he hends, List.isChain_append.2 ⟨ih, List.isChain_singleton _, ?_⟩⟩
    intro _ _ t'' ht'' _
    cases ht''
    exact .inl hk'

/-- Nothing but parentheses is closed in front of a token that does not go on. -/
def Blocked (ts : List Token) : Prop :=
  ∃ ws t us, ts = ws ++ t :: us ∧ (∀ w ∈ ws, w.kind = .symbol .rightParen) ∧ ¬ GoesOn t ∧ t.kind ≠ .eof

theorem not_isChain_of_blocked {t : Token} {ts : List Token} (ht : EndsOperand t) (h : Blocked ts) :
    ¬ (t :: ts).IsChain fun t t' => EndsOperand t → GoesOn t' := by
  obtain ⟨ws, t', us, rfl, hws, hstop, -⟩ := h
  induction ws generalizing t with
  | nil => exact fun hchain => hstop ((List.isChain_cons.1 hchain).1 t' rfl ht)
  | cons w ws ih =>
    obtain ⟨hw, hws⟩ := List.forall_mem_cons.1 hws
    exact fun hchain => ih (.inr hw) hws (List.isChain_cons.1 hchain).2

/-- Tokens with such a place in them are no expression in front of the closing one. -/
theorem Blocked.not_derives {us vs ts : List Token} {t : Token} {line : Nat} {r : Parsing.Rule} {e : Expr} (h : Blocked ts)
    (ht : EndsOperand t) (hts : us ++ [t] ++ ts = vs ++ [Token.eof line]) : ¬ Derives r vs e := by
  intro hd
  obtain ⟨ws, t', ts, rfl, hws, hstop, heof⟩ := h
  -- the token that does not go on is not the closing one, so it would be in the expression
  rcases List.eq_nil_or_concat' ts with rfl | ⟨ts, last, rfl⟩
  · have hends : us ++ [t] ++ ws ++ [t'] = vs ++ [Token.eof line] := by simpa using hts
    obtain ⟨-, hlast⟩ := List.append_inj' hends rfl
    exact heof (congrArg Token.kind (List.cons.inj hlast).1)
  · have hends : us ++ t :: (ws ++ t' :: ts) ++ [last] = vs ++ [Token.eof line] := by simpa using hts
    obtain ⟨rfl, -⟩ := List.append_inj' hends rfl
    exact not_isChain_of_blocked ht ⟨ws, t', ts, rfl, hws, hstop, heof⟩ hd.isChain.right_of_append

theorem Derives.kind_ne_identifier {r : Parsing.Rule} {u : List Token} {e : Expr} (h : Derives r u e) :
    ∀ t ∈ u, t.kind ≠ .identifier :=
  h.kind_ne (fun t v hv => by rcases hv with ⟨hk, -⟩ | ⟨hk, -⟩ | hk | hk | hk <;> simp [hk]) (fun _ => by simp)

end Grammar

open Grammar (EndsOperand GoesOn Blocked)

/-! ## Texts that are rejected -/

/-- **A scan is rejected**: it has an error, or its tokens are no expression under any budget. -/
def Scan.IsRejected (s : Scan) : Prop := s.errors ≠ [] ∨ ∀ budget, ∃ err, Expr.ofTokens budget s.tokens = .error err

theorem Scan.refused_of_not_derives {source : String}
    (h : ∀ us line e, (ofText source).tokens = us ++ [Token.eof line] → ¬ Derives (.layer .equality) us e) (budget : Nat) :
    ∃ err, Expr.ofTokens budget (ofText source).tokens = .error err := by
  obtain ⟨us, line, hus, -⟩ := ofSegments_tokens 1 (Segment.split source.toList)
  cases hparse : Expr.ofTokens budget (ofText source).tokens with
  | error err => exact ⟨err, rfl⟩
  | ok e =>
    have htokens : (ofText source).tokens = us ++ [Token.eof line] := hus
    rw [htokens, Parsing.ofTokens_closed_iff fun u => kind_ne_eof_of_mem hus] at hparse
    exact absurd hparse.1 (h us line e htokens)

/-! ## Numbers that are not finite -/

theorem scansAs_identifier {c : Char} {cs : List Char} (hc : Segment.isWordStart c = true)
    (hcs : cs.all Segment.isWordPart = true) (hkind : Segment.wordKind (c :: cs) = .identifier) (hflat : '\n' ∉ c :: cs)
    (line : Nat) : ScansAs line line (c :: cs) [⟨.identifier, String.ofList (c :: cs), none, line⟩] := by
  intro rest hrest
  have hsplit := Segment.split_word hc hcs hrest
  rw [hkind] at hsplit
  rw [Scan.ofChars_of_split_flat hsplit rfl hflat]
  rfl

/-- Without a minus sign, the text of a number that is not finite is a word and no keyword. -/
theorem Number.scansAs_text {n : Number} (h : n.isFinite = false) (hsign : n.isNegative = false) (line : Nat) :
    ScansAs line line n.text.toList [⟨.identifier, n.text, none, line⟩] ∧ Opens n.text.toList := by
  cases n with
  | nan s =>
    obtain rfl : s = false := hsign
    exact ⟨scansAs_identifier (by decide) (by decide) (by decide) (by decide) line, _, _, rfl, by decide, by decide⟩
  | infinity s =>
    obtain rfl : s = false := hsign
    exact ⟨scansAs_identifier (by decide) (by decide) (by decide) (by decide) line, _, _, rfl, by decide, by decide⟩
  | finite s m => cases h

/-- **A number that is not finite is written as a word**, after a minus sign and in parentheses if it is negative. -/
theorem Number.scansAs_word {n : Number} (h : n.isFinite = false) (line : Nat) :
    ∃ u, ScansAs line line (Expr.literalSource (.number n)).toList u ∧ ∃ t ∈ u, t.kind = .identifier := by
  by_cases hsign : n.isNegative = true
  · have hneg : n.neg.isNegative = false := by rw [isNegative_neg, hsign]; rfl
    obtain ⟨hscan, hopens⟩ := scansAs_text (by rw [isFinite_neg, h]) hneg line
    rw [Expr.toList_literalSource_negative hsign]
    exact ⟨_, hscan.unary .negate hopens, ⟨.identifier, n.neg.text, none, line⟩, by simp, rfl⟩
  · rw [Bool.not_eq_true] at hsign
    rw [Expr.literalSource_nonnegative hsign]
    exact ⟨_, (scansAs_text h hsign line).1, _, List.mem_singleton_self _, rfl⟩

/-- The sign of a `nan` is written, though the text of its value does not show it. -/
example : Expr.literalSource (.number (.nan true)) = "(-NaN)" ∧ (Value.number (.nan true)).text = "NaN" := by decide

/-! ## Strings that end early -/

/-- A character that a binary operator begins with. -/
def BeginsOperator (c : Char) : Prop := ∃ op : BinaryOp, op.text.toList.head? = some c

/-- What stands behind the first quote of a text, up to the next one or to its end. -/
def gap (cs : List Char) : List Char := ((cs.dropWhile (· ≠ '"')).drop 1).takeWhile (· ≠ '"')

def Value.gap? : Value → Option (List Char)
  | string s => if '"' ∈ s.toList then some (gap s.toList) else none
  | _ => none

/-- **The first gap of a tree**, that of its leftmost string with a quote. -/
def Expr.gap? (e : Expr) : Option (List Char) := e.literals.findSome? Value.gap?

theorem Expr.gap?_eq_none_iff {e : Expr} : e.gap? = none ↔ ∀ s, Value.string s ∈ e.literals → '"' ∉ s.toList := by
  rw [gap?, List.findSome?_eq_none_iff]
  constructor
  · intro h s hs hq
    have := h _ hs
    rw [Value.gap?, if_pos hq] at this
    cases this
  · intro h v hv
    cases v with
    | string s => exact if_neg (h s hv)
    | _ => rfl

theorem Expr.gap?_literal (v : Value) : (literal v).gap? = v.gap? := by
  rw [gap?, literals, List.findSome?_cons]
  cases v.gap? <;> rfl

theorem Expr.gap?_binary (l : Expr) (op : BinaryOp) (t : Token) (r : Expr) :
    (binary l op t r).gap? = l.gap?.or r.gap? := List.findSome?_append

/-- A text with a quote, closed by another one: a string, and its gap between two quotes. -/
theorem exists_gap {cs : List Char} (h : '"' ∈ cs) :
    ∃ a ds, '"' ∉ a ∧ cs ++ ['"'] = a ++ ['"'] ++ (gap cs ++ '"' :: ds) := by
  obtain ⟨a, b, rfl, ha⟩ := List.eq_append_cons_of_mem h
  have hdrop : (a ++ '"' :: b).dropWhile (· ≠ '"') = '"' :: b := by
    rw [List.dropWhile_append_of_pos fun c hc => by simpa using fun heq : c = '"' => ha (heq ▸ hc)]
    rfl
  have hgap : gap (a ++ '"' :: b) = b.takeWhile (· ≠ '"') := by rw [gap, hdrop]; rfl
  have hb : b.takeWhile (· ≠ '"') ++ b.dropWhile (· ≠ '"') = b := List.takeWhile_append_dropWhile
  rw [hgap]
  -- the gap ends at the next quote of the text, or at the one that closes it
  cases hrest : b.dropWhile (· ≠ '"') with
  | nil =>
    rw [hrest, List.append_nil] at hb
    exact ⟨a, [], ha, by rw [hb]; simp⟩
  | cons d ds =>
    obtain rfl : d = '"' := by
      have := List.head?_dropWhile_not (· ≠ '"') b
      rw [hrest] at this
      simpa using this
    refine ⟨a, ds ++ ['"'], ha, ?_⟩
    rw [hrest] at hb
    conv_lhs => rw [← hb]
    simp

/-- **A text is scanned up to a gap**: behind a string stands `w`, and a quote behind that, whatever follows. -/
def LeavesGap (line : Nat) (cs w : List Char) : Prop := ∃ us t line' ds, EndsOperand t ∧
  ∀ rest, ofChars line (cs ++ rest) = behind (us ++ [t]) (ofChars line' (w ++ '"' :: (ds ++ rest)))

section
variable {line line₁ : Nat} {cs ds w : List Char} {u : List Token}

theorem LeavesGap.append (h : LeavesGap line cs w) (es : List Char) : LeavesGap line (cs ++ es) w := by
  obtain ⟨us, t, line', ds, ht, hscan⟩ := h
  refine ⟨us, t, line', ds ++ es, ht, fun rest => ?_⟩
  rw [List.append_assoc, hscan, List.append_assoc]

theorem LeavesGap.behind_tokens (h : LeavesGap line₁ cs w)
    (hds : ∀ rest, ofChars line (ds ++ rest) = behind u (ofChars line₁ (cs ++ rest))) : LeavesGap line ds w := by
  obtain ⟨us, t, line', es, ht, hscan⟩ := h
  refine ⟨u ++ us, t, line', es, ht, fun rest => ?_⟩
  rw [hds, hscan, Scan.behind_behind, List.append_assoc]

theorem LeavesGap.group (hcs : Opens cs) (h : LeavesGap line cs w) : LeavesGap line ('(' :: (cs ++ [')'])) w :=
  (h.append [')']).behind_tokens ((hcs.append [')']).behind_symbol .leftParen line)

end

theorem Value.leavesGap {v : Value} {w : List Char} (h : v.gap? = some w) (line : Nat) :
    LeavesGap line (Expr.literalSource v).toList w := by
  cases v with
  | string s =>
    rw [gap?] at h
    split at h
    · next hq =>
      cases h
      obtain ⟨a, ds, ha, htext⟩ := exists_gap hq
      rw [Expr.toList_literalSource_string, htext]
      refine ⟨[], ⟨.string, String.ofList ('"' :: (a ++ ['"'])), some (.string (String.ofList a)), line + a.count '\n'⟩,
        line + a.count '\n', ds, .inl ⟨_, .string rfl rfl⟩, fun rest => ?_⟩
      have hquoted := Scan.ofChars_quoted ha (gap s.toList ++ '"' :: (ds ++ rest)) line
      simpa using hquoted
    · cases h
  | _ => cases h

/-! ## Trees -/

theorem Expr.opens_sourceText (e : Expr) : Opens e.sourceText.toList := by
  cases e with
  | literal v =>
    cases v with
    | number n =>
      by_cases hn : n.isFinite = true
      · exact (Value.writtenFor (v := .number n) hn 1).opens
      · cases n with
        | nan s => cases s <;> exact ⟨_, _, rfl, by decide, by decide⟩
        | infinity s => cases s <;> exact ⟨_, _, rfl, by decide, by decide⟩
        | finite s m => exact absurd rfl hn
    | string s =>
      have htext : (literal (.string s)).sourceText.toList = '"' :: (s.toList ++ ['"']) := toList_literalSource_string s
      rw [htext]
      exact ⟨_, _, rfl, by decide, by decide⟩
    | bool b => exact (Value.writtenFor (v := .bool b) trivial 1).opens
    | nil => exact (Value.writtenFor (v := .nil) trivial 1).opens
  | group e => rw [toList_sourceText_group]; exact opens_paren _
  | unary op t e => rw [toList_sourceText_unary]; exact opens_paren _
  | binary l op t r => rw [toList_sourceText_binary]; exact opens_paren _

/-- Without quotes in its strings a tree is scanned as it is written, each number that is not finite as a word. -/
theorem Expr.scansAs {e : Expr} (h : e.gap? = none) (line : Nat) : ∃ u,
    ScansAs line (line + e.lineEnds) e.sourceText.toList u ∧
      ∀ n, Value.number n ∈ e.literals → n.isFinite = false → ∃ t ∈ u, t.kind = .identifier := by
  induction e generalizing line with
  | literal v =>
    by_cases hv : v.HasSource
    · obtain ⟨u, -, hs⟩ := (v.writtenFor hv line).tokens
      refine ⟨u, hs, fun n hn hfinite => ?_⟩
      obtain rfl := List.mem_singleton.1 hn
      exact absurd hv (by simp [Value.HasSource, hfinite])
    · cases v with
      | number n =>
        have hfinite : n.isFinite = false := by simpa [Value.HasSource] using hv
        obtain ⟨u, hs, hword⟩ := Number.scansAs_word hfinite line
        exact ⟨u, hs, fun _ _ _ => hword⟩
      | string s => exact absurd (gap?_eq_none_iff.1 h s (List.mem_singleton_self _)) hv
      | bool b => exact absurd trivial hv
      | nil => exact absurd trivial hv
  | group e ih =>
    obtain ⟨u, hs, hword⟩ := ih h line
    rw [toList_sourceText_group]
    refine ⟨_, hs.group e.opens_sourceText, fun n hn hfinite => ?_⟩
    obtain ⟨t, ht, hk⟩ := hword n hn hfinite
    exact ⟨t, by simp [ht], hk⟩
  | unary op t e ih =>
    obtain ⟨u, hs, hword⟩ := ih h line
    rw [toList_sourceText_unary]
    refine ⟨_, hs.unary op e.opens_sourceText, fun n hn hfinite => ?_⟩
    obtain ⟨t, ht, hk⟩ := hword n hn hfinite
    exact ⟨t, by simp [ht], hk⟩
  | binary l op t r ihl ihr =>
    rw [gap?_binary, Option.or_eq_none_iff] at h
    obtain ⟨u, hs, hword⟩ := ihl h.1 line
    obtain ⟨v, hs', hword'⟩ := ihr h.2 (line + l.lineEnds)
    rw [toList_sourceText_binary, lineEnds, ← Nat.add_assoc]
    refine ⟨_, hs.binary op l.opens_sourceText r.opens_sourceText hs', fun n hn hfinite => ?_⟩
    rcases List.mem_append.1 hn with hn | hn
    · obtain ⟨t, ht, hk⟩ := hword n hn hfinite
      exact ⟨t, by simp [ht], hk⟩
    · obtain ⟨t, ht, hk⟩ := hword' n hn hfinite
      exact ⟨t, by simp [ht], hk⟩

/-- **A tree with a quote in a string is scanned as it is written up to its first gap.** -/
theorem Expr.leavesGap {e : Expr} {w : List Char} (h : e.gap? = some w) (line : Nat) :
    LeavesGap line e.sourceText.toList w := by
  induction e generalizing line with
  | literal v =>
    rw [gap?_literal] at h
    exact v.leavesGap h line
  | group e ih =>
    rw [toList_sourceText_group]
    exact (ih h line).group e.opens_sourceText
  | unary op t e ih =>
    rw [toList_sourceText_unary]
    exact ((ih h line).behind_tokens (e.opens_sourceText.behind_symbol op.symbol line)).group (op.opens_text _)
  | binary l op t r ihl ihr =>
    have hopens := l.opens_sourceText.append (' ' :: (op.text.toList ++ ' ' :: r.sourceText.toList))
    rw [gap?_binary] at h
    rw [toList_sourceText_binary]
    -- in front of the first gap all strings are closed where they were meant to be
    cases hl : l.gap? with
    | some v =>
      rw [hl] at h
      exact ((ihl (hl.trans h) line).append _).group hopens
    | none =>
      rw [hl] at h
      obtain ⟨u, hs, -⟩ := l.scansAs hl line
      exact ((ihr h _).behind_tokens (hs.before_operand op.symbol r.opens_sourceText)).group hopens

/-! ## Behind a gap -/

section
variable {w cs ds x : List Char} {s : Segment} {ss : List Segment}

theorem prefix_of_prefix_quote (h : x <+: w ++ '"' :: ds) (hq : '"' ∉ x) : x <+: w :=
  (Segment.prefix_or_goes_on h).resolve_right fun hlong => hq (hlong.subset (by simp))

/-- The first piece of a gap and what is behind it: a fault, a token that does not go on, or a closing parenthesis or layout
inside the gap. -/
theorem firstPiece_gap (h : FirstPiece cs s) (hcs : cs = w ++ '"' :: ds) (hw : ∀ c ∈ w, ¬ BeginsOperator c) :
    (∃ cause, s.sort = .error cause) ∨
      (∃ kind, s.sort = .ok kind ∧ kind.isLayout = false ∧ kind ≠ .eof ∧ kind ≠ .symbol .rightParen ∧
        ∀ op : BinaryOp, kind ≠ .symbol op.symbol) ∨
      (s.text <+: w ∧ ∃ kind, s.sort = .ok kind ∧ (kind = .symbol .rightParen ∨ kind.isLayout = true)) := by
  cases h with
  | unterminated => exact .inl ⟨_, rfl⟩
  | unexpected => exact .inl ⟨_, rfl⟩
  | @lexeme kind x _ h =>
    subst hcs
    refine .inr ?_
    have hx := h.1
    cases kind with
    | symbol y =>
      obtain rfl : x = y.spelling.toList := hx
      -- a symbol inside the gap begins with one of its characters, so it is no operator
      have hin : y.spelling.toList <+: w := prefix_of_prefix_quote h.2.1 (by cases y <;> decide)
      by_cases hy : y = .rightParen
      · exact .inr ⟨hin, _, rfl, .inl (congrArg _ hy)⟩
      · refine .inl ⟨_, rfl, rfl, by simp, by simpa using hy, fun op hop => ?_⟩
        obtain rfl : y = op.symbol := by injection hop
        obtain ⟨c, cs, hs, -⟩ := Segment.symbol_spelling_eq op.symbol
        exact hw c (hin.subset (by rw [hs]; exact List.mem_cons_self)) ⟨op, by rw [BinaryOp.text, hs]; rfl⟩
    | comment =>
      obtain ⟨cs, -, rfl⟩ := Segment.mem_comment.1 hx
      have hslash : ['/'] <+: w := by
        refine prefix_of_prefix_quote (List.IsPrefix.trans ?_ h.2.1) (by decide)
        exact ⟨'/' :: cs, rfl⟩
      exact absurd ⟨.div, rfl⟩ (hw '/' (hslash.subset List.mem_cons_self))
    | newline =>
      obtain rfl : x = ['\n'] := hx
      exact .inr ⟨prefix_of_prefix_quote h.2.1 (by decide), _, rfl, .inr rfl⟩
    | blanks =>
      have hq : '"' ∉ x := fun hq => absurd ((Segment.mem_blanks.1 hx).2 _ hq) (by decide)
      exact .inr ⟨prefix_of_prefix_quote h.2.1 hq, _, rfl, .inr rfl⟩
    | eof => exact absurd hx (Language.notMem_zero _)
    | keyword k => exact .inl ⟨_, rfl, rfl, by simp, by simp, fun _ => by simp⟩
    | identifier => exact .inl ⟨_, rfl, rfl, by simp, by simp, fun _ => by simp⟩
    | string => exact .inl ⟨_, rfl, rfl, by simp, by simp, fun _ => by simp⟩
    | number => exact .inl ⟨_, rfl, rfl, by simp, by simp, fun _ => by simp⟩

theorem blocked_of_tokenizes (h : Tokenizes cs ss) (hcs : cs = w ++ '"' :: ds)
    (hw : ∀ c ∈ w, ¬ BeginsOperator c) (line : Nat) :
    (Scan.ofSegments line ss).errors ≠ [] ∨ Blocked (Scan.ofSegments line ss).tokens := by
  induction h generalizing w line with
  | nil => exact absurd hcs.symm (by simp)
  | @cons cs s rest ss htext hp _ ih =>
    rcases firstPiece_gap hp hcs hw with ⟨cause, hsort⟩ | ⟨kind, hsort, hlayout, heof, hparen, hop⟩ | ⟨⟨v, rfl⟩, kind, hsort, hkind⟩
    · exact .inl (by simp [Scan.ofSegments, hsort])
    · refine .inr ⟨[], Token.ofLexeme kind s.text (line + s.newlines), (Scan.ofSegments (line + s.newlines) ss).tokens,
        ?_, by simp, ?_, heof⟩
      · simp [Scan.ofSegments, hsort, hlayout]
      · rintro (hk | ⟨op, hk⟩)
        · exact hparen hk
        · exact hop op hk
    · -- the gap goes on behind the piece
      have hrest : rest = v ++ '"' :: ds := by
        rw [hcs, List.append_assoc] at htext
        exact (List.append_cancel_left htext).symm
      have hlater := ih hrest (fun c hc => hw c (List.mem_append_right _ hc)) (line + s.newlines)
      rcases hkind with rfl | hlayout
      · refine hlater.imp (fun h => ?_) (fun h => ?_)
        · simpa [Scan.ofSegments, hsort, TokenKind.isLayout] using h
        · obtain ⟨ws, t, us, htokens, hws, hstop⟩ := h
          refine ⟨Token.ofLexeme (.symbol .rightParen) s.text (line + s.newlines) :: ws, t, us, ?_, ?_, hstop⟩
          · simp [Scan.ofSegments, hsort, TokenKind.isLayout, htokens]
          · exact List.forall_mem_cons.2 ⟨rfl, hws⟩
      · simpa [Scan.ofSegments, hsort, hlayout] using hlater

end

/-- **A text is rejected whose first gap has no character that an operator begins with.** -/
theorem Expr.isRejected_of_gap {e : Expr} {w : List Char} (h : e.gap? = some w) (hw : ∀ c ∈ w, ¬ BeginsOperator c) :
    (Scan.ofText e.sourceText).IsRejected := by
  obtain ⟨us, t, line', ds, ht, hscan⟩ := e.leavesGap h 1
  have hscan := hscan []
  rw [List.append_nil, List.append_nil] at hscan
  have hscan : Scan.ofText e.sourceText = behind (us ++ [t]) (ofChars line' (w ++ '"' :: ds)) := hscan
  rcases blocked_of_tokenizes (Segment.tokenizes_split (w ++ '"' :: ds)) rfl hw line' with herrors | hblocked
  · exact .inl (by rw [hscan]; exact herrors)
  · refine .inr (Scan.refused_of_not_derives fun vs line e' hvs hd => ?_)
    exact hblocked.not_derives ht (by rw [← hvs, hscan]; rfl) hd

theorem Expr.refused_of_not_isFinite {e : Expr} (h : e.gap? = none) (hfinite : ¬ e.IsFinite) :
    (Scan.ofText e.sourceText).errors = [] ∧
      ∀ budget, ∃ err, Expr.ofTokens budget (Scan.ofText e.sourceText).tokens = .error err := by
  obtain ⟨u, hs, hword⟩ := e.scansAs h 1
  have hscan : Scan.ofText e.sourceText = ⟨u ++ [Token.eof (1 + e.lineEnds)], []⟩ := hs.ofChars_eq
  refine ⟨by rw [hscan], Scan.refused_of_not_derives fun us line e' hus hd => ?_⟩
  rw [hscan] at hus
  obtain ⟨rfl, -⟩ := List.append_inj' hus rfl
  obtain ⟨n, hn⟩ := not_forall.1 hfinite
  obtain ⟨hn, hinfinite⟩ := Classical.not_imp.1 hn
  obtain ⟨t, ht, hk⟩ := hword n hn (by simpa using hinfinite)
  exact hd.kind_ne_identifier t ht hk

/-- **What is written for a tree without a source text.**  Without quotes in its strings but with a number that is not finite,
the text is scanned without an error and is no expression under any budget.  With a quote in some string, the text is rejected
unless its first gap has a character that an operator begins with.  And without two slashes side by side in a
string, a string is left open exactly if the quotes of all strings are odd in number. -/
theorem Expr.misprints_spec (e : Expr) :
    (¬ e.IsFinite → (∀ s, Value.string s ∈ e.literals → '"' ∉ s.toList) → (Scan.ofText e.sourceText).errors = [] ∧
      ∀ budget, ∃ err, Expr.ofTokens budget (Scan.ofText e.sourceText).tokens = .error err) ∧
    (∀ w, e.gap? = some w → (∀ c ∈ w, ¬ BeginsOperator c) → (Scan.ofText e.sourceText).IsRejected) ∧
    (e.NoComments → (LexError.Cause.unterminatedString ∈ (Scan.ofText e.sourceText).errors.map LexError.cause ↔
      e.quotes % 2 = 1)) :=
  ⟨fun hfinite hs => e.refused_of_not_isFinite (gap?_eq_none_iff.2 hs) hfinite, fun _ => isRejected_of_gap,
    unterminated_sourceText_iff⟩

/-- The string of a plus between two quotes. -/
def quotedPlus : Expr := .literal (.string "\"+\"")

/-- It is written as the sum of two empty strings. -/
theorem ofTokens_quotedPlus : '"' ∈ "\"+\"".toList ∧ (Scan.ofText quotedPlus.sourceText).errors = [] ∧
    Expr.ofTokens defaultBudget (Scan.ofText quotedPlus.sourceText).tokens =
      .ok (.binaryAt (.literal (.string "")) .add (.literal (.string "")) 1) ∧
    (Expr.binaryAt (.literal (.string "")) .add (.literal (.string "")) 1).evaluate = .ok (.string "") ∧
    ¬ (Scan.ofText quotedPlus.sourceText).IsRejected := by
  let empty : Token := ⟨.string, "\"\"", some (.string ""), 1⟩
  have hempty : ∀ rest, ofChars 1 ('"' :: '"' :: rest) = behind [empty] (ofChars 1 rest) :=
    fun rest => Scan.ofChars_quoted (s := []) List.not_mem_nil rest 1
  have hplus : ofChars 1 ['+', '"', '"'] = behind [Symbol.plus.token 1] (ofChars 1 ['"', '"']) :=
    Scan.ofChars_symbol .plus (Segment.endsSymbol_cons (by decide)) 1
  have hscan : Scan.ofText quotedPlus.sourceText = ⟨[empty] ++ BinaryOp.add.token 1 :: [empty] ++ [Token.eof 1], []⟩ := by
    have htext : Scan.ofText quotedPlus.sourceText = ofChars 1 ['"', '"', '+', '"', '"'] := rfl
    rw [htext, hempty, hplus, hempty, Scan.ofChars_nil]
    rfl
  have hd : Derives .primary [empty] (.literal (.string "")) := .literal (.string rfl rfl)
  have hsum := hd.link_primaries .add hd 1
  have herrors : (Scan.ofText quotedPlus.sourceText).errors = [] := by rw [hscan]
  have hread : Expr.ofTokens defaultBudget (Scan.ofText quotedPlus.sourceText).tokens =
      .ok (.binaryAt (.literal (.string "")) .add (.literal (.string "")) 1) := by
    rw [hscan]
    exact (Parsing.ofTokens_closed_iff hsum.kind_ne_eof).2 ⟨hsum, by decide⟩
  refine ⟨by decide, herrors, hread, by decide, ?_⟩
  rintro (h | h)
  · exact h herrors
  · obtain ⟨err, herr⟩ := h defaultBudget
    cases hread.symm.trans herr

end LoxExpr
