import LoxExpr.Operator
import LoxExpr.Scan
import LoxExpr.Proofs.NumberText
/-!
# Pieces: where a written text is cut

What a lexeme is cut off as depends on what follows it: a number, a word, a symbol or a run of blanks could go on.  Here is
one law for each sort of lexeme that an expression is written with, saying what must not follow it for `Segment.split` to end
the piece there.  `Scan.ofChars_of_split` then drops layout and turns a piece into its token.
-/
namespace LoxExpr
namespace Segment

/-- What ends a number or a word: a blank, a closing parenthesis or the end of the text. -/
def EndsPiece (rest : List Char) : Prop := ∀ d, rest.head? = some d → d = ' ' ∨ d = ')'

theorem endsPiece_nil : EndsPiece [] := fun _ h => nomatch h

theorem endsPiece_cons {d : Char} {rest : List Char} (h : d = ' ' ∨ d = ')') : EndsPiece (d :: rest) := by
  intro d' hd
  cases hd
  exact h

theorem EndsPiece.head {p : Char → Bool} {rest : List Char} (h : EndsPiece rest) (hblank : p ' ' = false)
    (hparen : p ')' = false) : ∀ d, rest.head? = some d → p d = false := by
  intro d hd
  rcases h d hd with rfl | rfl
  · exact hblank
  · exact hparen

/-- What does not make a symbol longer. -/
def EndsSymbol (rest : List Char) : Prop := ∀ d, rest.head? = some d → d ≠ '=' ∧ d ≠ '/'

theorem EndsPiece.endsSymbol {rest : List Char} (h : EndsPiece rest) : EndsSymbol rest := by
  intro d hd
  rcases h d hd with rfl | rfl <;> decide

theorem endsSymbol_cons {d : Char} {rest : List Char} (h : d ≠ '=' ∧ d ≠ '/') : EndsSymbol (d :: rest) := by
  intro d' hd
  cases hd
  exact h

/-! ## One piece -/

/-- **A text begins with the piece that `cut` takes from it.** -/
theorem split_of_cut {sort : Except LexError.Cause TokenKind} {c : Char} {w rest : List Char}
    (h : cut c (w ++ rest) = (sort, w.length)) : split (c :: w ++ rest) = ⟨sort, c :: w⟩ :: split rest := by
  rw [List.cons_append, split_cons, h, List.take_left, List.drop_left]

theorem run_append {p : Char → Bool} {w rest : List Char} (hw : ∀ c ∈ w, p c = true)
    (hrest : ∀ d, rest.head? = some d → p d = false) : run p (w ++ rest) = w.length := by
  unfold run
  rw [List.takeWhile_append_of_pos hw, List.length_append]
  cases rest with
  | nil => rfl
  | cons d rest =>
    have hd : p d = false := hrest d rfl
    rw [List.takeWhile_cons, hd]
    rfl

theorem ne_of_class {p : Char → Bool} {c d : Char} (hc : p c = true) (hd : p d = false) : c ≠ d := by
  rintro rfl
  rw [hc] at hd
  cases hd

theorem isBlank_eq_false_of_class {p : Char → Bool} {c : Char} (hc : p c = true) (hspace : p ' ' = false)
    (htab : p '\t' = false) (hreturn : p '\r' = false) : isBlank c = false := by
  simp [isBlank, ne_of_class hc hspace, ne_of_class hc htab, ne_of_class hc hreturn]

theorem split_blank {rest : List Char} (h : ∀ d, rest.head? = some d → isBlank d = false) :
    split (' ' :: rest) = ⟨.ok .blanks, [' ']⟩ :: split rest := by
  have hrun : run isBlank ([] ++ rest) = 0 := run_append (w := []) (fun _ hc => nomatch hc) h
  have hcut : cut ' ' ([] ++ rest) = (.ok .blanks, 0) := by
    unfold cut
    rw [if_neg (by decide), if_neg (by decide), if_pos (by decide), hrun]
  exact split_of_cut (w := []) hcut

/-! ### Strings -/

theorem run_quote {s rest : List Char} (h : '"' ∉ s) : run (· ≠ '"') (s ++ '"' :: rest) = s.length := by
  refine run_append (fun c hc => ?_) (fun d hd => by cases hd; rfl)
  simpa using fun he : c = '"' => h (he ▸ hc)

/-- **A text without a quote, put in quotes, is one string**, whatever follows. -/
theorem split_quoted {s : List Char} (h : '"' ∉ s) (rest : List Char) :
    split ('"' :: (s ++ ['"']) ++ rest) = ⟨.ok .string, '"' :: (s ++ ['"'])⟩ :: split rest := by
  have hcut : cut '"' (s ++ ['"'] ++ rest) = (.ok .string, (s ++ ['"']).length) := by
    have hmem : (s ++ '"' :: rest).contains '"' = true := by simp
    unfold cut cutString
    rw [if_pos rfl, List.append_assoc, List.singleton_append, if_pos hmem, run_quote h, List.length_append]
    rfl
  exact split_of_cut hcut

/-! ### Numbers -/

theorem cut_digit {c : Char} (hc : c.isDigit = true) (cs : List Char) : cut c cs = (.ok .number, cutNumber cs) := by
  have hquote : c ≠ '"' := ne_of_class hc (by decide)
  have hline : c ≠ '\n' := ne_of_class hc (by decide)
  have hblank : isBlank c = false := isBlank_eq_false_of_class hc (by decide) (by decide) (by decide)
  unfold cut
  rw [if_neg hquote, if_neg hline, hblank, if_neg Bool.false_ne_true, if_pos hc]

theorem cutNumber_whole {w rest : List Char} (hw : ∀ d ∈ w, d.isDigit = true)
    (hrest : ∀ d, rest.head? = some d → d.isDigit = false)
    (hpoint : ∀ places, rest = '.' :: places → run Char.isDigit places = 0) : cutNumber (w ++ rest) = w.length := by
  simp only [cutNumber, run_append hw hrest, List.drop_left]
  split
  · exact if_pos (hpoint _ rfl)
  · rfl

theorem cutNumber_fraction {w es rest : List Char} (hw : ∀ d ∈ w, d.isDigit = true) (hes : es ≠ [])
    (hdigits : ∀ d ∈ es, d.isDigit = true) (hrest : ∀ d, rest.head? = some d → d.isDigit = false) :
    cutNumber (w ++ '.' :: es ++ rest) = (w ++ '.' :: es).length := by
  have hwhole : run Char.isDigit (w ++ '.' :: (es ++ rest)) = w.length := run_append hw (fun d hd => by cases hd; decide)
  have hpos : es.length ≠ 0 := fun h => hes (List.length_eq_zero_iff.1 h)
  rw [List.append_assoc, List.cons_append]
  simp only [cutNumber, hwhole, List.drop_left, run_append hdigits hrest, if_neg hpos, List.length_append, List.length_cons]
  omega

theorem cutNumber_append {cs : List Char} (n : Numeral) (hcs : ∀ c ∈ cs, c.isDigit = true) {rest : List Char}
    (h : EndsPiece rest) : cutNumber (cs ++ (n.fraction ++ rest)) = (cs ++ n.fraction).length := by
  have hrest := h.head (p := Char.isDigit) (by decide) (by decide)
  by_cases hp : n.places = []
  · have hfraction : n.fraction = [] := if_pos hp
    rw [hfraction, List.nil_append, List.append_nil]
    refine cutNumber_whole hcs hrest fun places hpoint => ?_
    rcases h '.' (by rw [hpoint]; rfl) with h | h <;> cases h
  · have hfraction : n.fraction = '.' :: n.places := if_neg hp
    rw [hfraction, ← List.append_assoc]
    exact cutNumber_fraction hcs hp n.isDigit_places hrest

/-- **A numeral is one number** when nothing follows that could belong to it. -/
theorem split_numeral (n : Numeral) {rest : List Char} (h : EndsPiece rest) :
    split (n.text ++ rest) = ⟨.ok .number, n.text⟩ :: split rest := by
  obtain ⟨c, cs, hw, hc, hcs⟩ := n.whole_eq
  have htext : n.text = c :: (cs ++ n.fraction) := by rw [Numeral.text, hw, List.cons_append]
  rw [htext]
  refine split_of_cut ?_
  rw [cut_digit hc, List.append_assoc, cutNumber_append n hcs h]

/-! ### Words -/

theorem isDigit_eq_false_of_isWordStart {c : Char} (hc : isWordStart c = true) : c.isDigit = false := by
  unfold isWordStart at hc
  rw [Bool.or_eq_true] at hc
  rcases hc with halpha | hunder
  · -- the letters lie above the digits
    have hrange : (decide (65 ≤ c.val ∧ c.val ≤ 90) || decide (97 ≤ c.val) && decide (c.val ≤ 122)) = true := halpha
    simp only [Bool.or_eq_true, Bool.and_eq_true, decide_eq_true_eq, UInt32.le_iff_toNat_le] at hrange
    rw [← Bool.not_eq_true, Char.isDigit_iff_toNat]
    have h65 : (65 : UInt32).toNat = 65 := rfl
    have h97 : (97 : UInt32).toNat = 97 := rfl
    have h9 : '9'.toNat = 57 := rfl
    have hval : c.toNat = c.val.toNat := rfl
    omega
  · rw [of_decide_eq_true hunder]
    decide

theorem cut_wordStart {c : Char} (hc : isWordStart c = true) (cs : List Char) :
    cut c cs = (.ok (wordKind (c :: cs.take (run isWordPart cs))), run isWordPart cs) := by
  have hquote : c ≠ '"' := ne_of_class hc (by decide)
  have hline : c ≠ '\n' := ne_of_class hc (by decide)
  have hblank : isBlank c = false := isBlank_eq_false_of_class hc (by decide) (by decide) (by decide)
  have hdigit : c.isDigit = false := isDigit_eq_false_of_isWordStart hc
  unfold cut
  rw [if_neg hquote, if_neg hline, hblank, if_neg Bool.false_ne_true, hdigit, if_neg Bool.false_ne_true, if_pos hc]

theorem keyword_spelling_eq (k : Keyword) :
    ∃ c cs, k.spelling.toList = c :: cs ∧ isWordStart c = true ∧ cs.all isWordPart = true := by
  cases k <;> exact ⟨_, _, rfl, rfl, rfl⟩

theorem wordKind_spelling (k : Keyword) : wordKind k.spelling.toList = .keyword k := by
  cases k <;> rfl

/-- **A word is one piece** when nothing follows that could belong to it. -/
theorem split_word {c : Char} {cs rest : List Char} (hc : isWordStart c = true) (hcs : cs.all isWordPart = true)
    (h : EndsPiece rest) : split (c :: cs ++ rest) = ⟨.ok (wordKind (c :: cs)), c :: cs⟩ :: split rest := by
  have hrun : run isWordPart (cs ++ rest) = cs.length := run_append (List.all_eq_true.1 hcs) (h.head (by decide) (by decide))
  refine split_of_cut ?_
  rw [cut_wordStart hc, hrun, List.take_left]

theorem split_keyword (k : Keyword) {rest : List Char} (h : EndsPiece rest) :
    split (k.spelling.toList ++ rest) = ⟨.ok (.keyword k), k.spelling.toList⟩ :: split rest := by
  obtain ⟨c, cs, hw, hc, hcs⟩ := keyword_spelling_eq k
  have hkind := wordKind_spelling k
  rw [hw] at hkind ⊢
  rw [split_word hc hcs h, hkind]

/-! ### Symbols -/

/-- No symbol is spelled with two characters the second of which is not the equals sign. -/
theorem find?_spelling_pair {c d : Char} (hd : d ≠ '=') : Symbol.all.find? (fun s => s.spelling.toList == [c, d]) = none := by
  rw [List.find?_eq_none]
  intro s _ hs
  have heq : s.spelling.toList = [c, d] := by simpa using hs
  cases s <;> simp [Symbol.spelling] at heq <;> exact hd heq.2.symm

theorem find?_spelling (s : Symbol) : Symbol.all.find? (fun s' => s'.spelling.toList == s.spelling.toList) = some s := by
  cases s <;> rfl

theorem symbol_spelling_eq (s : Symbol) :
    ∃ c cs, s.spelling.toList = c :: cs ∧ c ≠ '"' ∧ c ≠ '\n' ∧ isBlank c = false ∧ c.isDigit = false ∧
      isWordStart c = false ∧ (cs = [] ∨ c ≠ '/' ∧ cs = ['=']) := by
  cases s <;> exact ⟨_, _, rfl, by decide, by decide, by decide, by decide, by decide, by decide⟩

theorem symbolAt?_append {s : Symbol} {c : Char} {cs rest : List Char} (hs : s.spelling.toList = c :: cs)
    (hcs : cs = [] ∨ cs = ['=']) (h : EndsSymbol rest) : symbolAt? c (cs ++ rest) = some s := by
  have hfind := find?_spelling s
  rw [hs] at hfind
  unfold symbolAt?
  rcases hcs with rfl | rfl
  · cases rest with
    | nil => simp only [List.append_nil, List.take_nil, hfind, Option.some_or]
    | cons d rest =>
      have hpair := find?_spelling_pair (c := c) (h d rfl).1
      simp only [List.nil_append, List.take_succ_cons, List.take_zero, hpair, Option.none_or, hfind]
  · simp only [List.cons_append, List.take_succ_cons, List.take_zero, hfind, Option.some_or]

/-- **The spelling of a symbol is one piece** when nothing follows that would make another symbol or a comment of it. -/
theorem split_symbol (s : Symbol) {rest : List Char} (h : EndsSymbol rest) :
    split (s.spelling.toList ++ rest) = ⟨.ok (.symbol s), s.spelling.toList⟩ :: split rest := by
  obtain ⟨c, cs, hs, hquote, hline, hblank, hdigit, hword, hcs⟩ := symbol_spelling_eq s
  have hlen : s.spelling.length - 1 = cs.length := by
    rw [← String.length_toList, hs, List.length_cons, Nat.add_sub_cancel]
  have hcomment : ¬ (c = '/' ∧ (cs ++ rest).head? = some '/') := by
    rintro ⟨hc, hr⟩
    rcases hcs with rfl | ⟨hne, -⟩
    · exact (h '/' hr).2 rfl
    · exact hne hc
  have hsymbol : symbolAt? c (cs ++ rest) = some s := symbolAt?_append hs (hcs.imp_right And.right) h
  rw [hs]
  refine split_of_cut ?_
  unfold cut
  rw [if_neg hquote, if_neg hline, hblank, if_neg Bool.false_ne_true, hdigit, if_neg Bool.false_ne_true, hword,
    if_neg Bool.false_ne_true, if_neg hcomment]
  simp only [hsymbol, hlen]

end Segment

/-- A quoted text stands for what is between the quotes. -/
theorem Token.literalOf?_quoted (cs : List Char) :
    literalOf? .string ('"' :: (cs ++ ['"'])) = some (.string (String.ofList cs)) := by
  simp [literalOf?, unquote?]

/-! ## The scan of what begins with a piece -/

namespace Scan

open Segment (split EndsPiece EndsSymbol)

/-- The scan of a text that begins on `line`. -/
def ofChars (line : Nat) (cs : List Char) : Scan := ofSegments line (split cs)

theorem ofChars_nil (line : Nat) : ofChars line [] = ⟨[Token.eof line], []⟩ := by
  rw [ofChars, Segment.split_nil]
  rfl

/-- A scan with tokens in front of it. -/
def behind (ts : List Token) (s : Scan) : Scan := ⟨ts ++ s.tokens, s.errors⟩

theorem behind_behind (ts us : List Token) (s : Scan) : behind ts (behind us s) = behind (ts ++ us) s := by
  simp only [behind, List.append_assoc]

theorem ofChars_of_split {kind : TokenKind} {w rest : List Char} (h : split (w ++ rest) = ⟨.ok kind, w⟩ :: split rest)
    (hkind : kind.isLayout = false) (line : Nat) :
    ofChars line (w ++ rest) =
      behind [Token.ofLexeme kind w (line + w.count '\n')] (ofChars (line + w.count '\n') rest) := by
  rw [ofChars, h, ofSegments]
  simp only [hkind, Bool.false_eq_true, if_false]
  rfl

theorem ofChars_of_split_flat {kind : TokenKind} {w rest : List Char}
    (h : split (w ++ rest) = ⟨.ok kind, w⟩ :: split rest) (hkind : kind.isLayout = false) (hflat : '\n' ∉ w) (line : Nat) :
    ofChars line (w ++ rest) = behind [Token.ofLexeme kind w line] (ofChars line rest) := by
  have hcount : w.count '\n' = 0 := List.count_eq_zero.2 hflat
  rw [ofChars_of_split h hkind, hcount, Nat.add_zero]

theorem ofChars_blank {rest : List Char} (h : ∀ d, rest.head? = some d → Segment.isBlank d = false) (line : Nat) :
    ofChars line (' ' :: rest) = ofChars line rest := by
  rw [ofChars, Segment.split_blank h, ofSegments]
  rfl

theorem ofChars_symbol (s : Symbol) {rest : List Char} (h : EndsSymbol rest) (line : Nat) :
    ofChars line (s.spelling.toList ++ rest) = behind [s.token line] (ofChars line rest) := by
  have hflat : '\n' ∉ s.spelling.toList := by cases s <;> decide
  rw [ofChars_of_split_flat (Segment.split_symbol s h) rfl hflat, Token.ofLexeme, String.ofList_toList]
  rfl

theorem ofChars_keyword (k : Keyword) {rest : List Char} (h : EndsPiece rest) (line : Nat) :
    ofChars line (k.spelling.toList ++ rest) =
      behind [⟨.keyword k, k.spelling, none, line⟩] (ofChars line rest) := by
  have hflat : '\n' ∉ k.spelling.toList := by cases k <;> decide
  rw [ofChars_of_split_flat (Segment.split_keyword k h) rfl hflat, Token.ofLexeme, String.ofList_toList]
  rfl

/-- **A numeral is scanned as a number**, and the token carries what the numeral is read as. -/
theorem ofChars_numeral (n : Numeral) {rest : List Char} (h : EndsPiece rest) (line : Nat) :
    ofChars line (n.text ++ rest) =
      behind [⟨.number, String.ofList n.text, (Number.ofText? n.text).map .number, line⟩] (ofChars line rest) := by
  have hflat : '\n' ∉ n.text := by
    intro hc
    rcases n.isDigit_of_mem_text hc with hdigit | hpoint
    · exact absurd hdigit (by decide)
    · exact absurd hpoint (by decide)
  rw [ofChars_of_split_flat (Segment.split_numeral n h) rfl hflat]
  rfl

/-- **A text without a quote, put in quotes, is scanned as that string**, on the line where the closing quote stands. -/
theorem ofChars_quoted {s : List Char} (h : '"' ∉ s) (rest : List Char) (line : Nat) :
    ofChars line ('"' :: (s ++ ['"']) ++ rest) =
      behind [⟨.string, String.ofList ('"' :: (s ++ ['"'])), some (.string (String.ofList s)), line + s.count '\n'⟩]
        (ofChars (line + s.count '\n') rest) := by
  have hcount : ('"' :: (s ++ ['"'])).count '\n' = s.count '\n' := by
    rw [List.count_cons_of_ne (by decide), List.count_append]
    rfl
  rw [ofChars_of_split (Segment.split_quoted h rest) rfl, hcount, Token.ofLexeme, Token.literalOf?_quoted]

end Scan
end LoxExpr
