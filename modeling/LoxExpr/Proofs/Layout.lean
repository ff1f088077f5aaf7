import LoxExpr.Proofs.Alike
import LoxExpr.Proofs.Tokenization
/-!
# Layout: tokens written anew

Blanks, line ends and comments between tokens may be exchanged for others.  In front of a blank or a line end no lexeme can
become longer: only strings and layout have such a character in them, and a string ends with the quote that it already has
(`Longest.before_gap`).  So each token of a scan is cut off as itself wherever a blank or a line end follows, and what layout
follows it comes to nothing but its lines (`Scan.ofChars_layout`).

The tokens of a text, written out with any separators (`LaysOut`), are thus scanned as the same tokens on other lines, and
lists of tokens that differ in lines are read alike.
-/
namespace LoxExpr

open Segment (Longest isBlank lexemes split)

/-! ## Separators -/

/-- **Layout**: blanks, line ends, and comments that a line end closes. -/
inductive IsLayout : List Char → Prop
  | nil : IsLayout []
  | blank {c cs} : isBlank c = true → IsLayout cs → IsLayout (c :: cs)
  | newline {cs} : IsLayout cs → IsLayout ('\n' :: cs)
  | comment {w cs} : '\n' ∉ w → IsLayout cs → IsLayout ('/' :: '/' :: (w ++ '\n' :: cs))

/-- Blanks and line ends end a lexeme; a comment need not, since a slash may be in front of it. -/
def IsGap (c : Char) : Prop := isBlank c = true ∨ c = '\n'

/-- **A separator** is layout that begins with a blank or a line end. -/
structure IsSeparator (cs : List Char) : Prop where
  layout : IsLayout cs
  head : ∃ c rest, cs = c :: rest ∧ IsGap c

/-- **The lexemes of tokens with separators between them.** -/
inductive LaysOut : List Token → List Char → Prop
  | nothing : LaysOut [] []
  | last {t} : LaysOut [t] t.lexeme.toList
  | more {t u ts sep cs} : IsSeparator sep → LaysOut (u :: ts) cs → LaysOut (t :: u :: ts) (t.lexeme.toList ++ sep ++ cs)

/-! ## In front of a gap -/

/-- What a lexeme ends in front of. -/
def EndsLexeme (rest : List Char) : Prop := ∀ d, rest.head? = some d → IsGap d

theorem endsLexeme_nil : EndsLexeme [] := fun _ hd => nomatch hd

theorem IsSeparator.endsLexeme {sep : List Char} (h : IsSeparator sep) (rest : List Char) : EndsLexeme (sep ++ rest) := by
  obtain ⟨c, cs, rfl, hc⟩ := h.head
  intro d hd
  cases hd
  exact hc

namespace Segment

section
variable {kind : TokenKind} {w cs rest : List Char} {d : Char}

theorem kind_of_gap_mem (hd : IsGap d) (h : w ∈ lexemes kind) (hmem : d ∈ w) : kind = .string ∨ kind.isLayout = true := by
  have hcases : d = ' ' ∨ d = '\t' ∨ d = '\r' ∨ d = '\n' := by
    simpa [IsGap, isBlank, or_assoc] using hd
  have hforeign : (∀ s : Symbol, d ∉ s.spelling.toList) ∧ isWordPart d = false ∧ d ≠ '.' := by
    rcases hcases with rfl | rfl | rfl | rfl <;> exact ⟨fun s => by cases s <;> decide, by decide, by decide⟩
  exact kind_of_mem_outside (fun s _ => hforeign.1 s) hforeign.2.1 hforeign.2.2 h hmem

/-- In front of a gap no lexeme goes on as a longer one, unless it is layout itself. -/
theorem not_prefix_of_gap {kind' : TokenKind} {v : List Char} (hd : IsGap d) (hw : w ∈ lexemes kind)
    (hkind : kind.isLayout = false) (hv : v ∈ lexemes kind') : ¬ w ++ [d] <+: v := by
  intro hp
  have hmem : d ∈ v := hp.subset (by simp)
  obtain ⟨c, w, rfl, hc⟩ := opening_of_mem hw
  obtain ⟨c', v, rfl, hc'⟩ := opening_of_mem hv
  obtain ⟨rfl, hwv⟩ := List.cons_prefix_cons.1 hp
  have hopening : openingOf kind = openingOf kind' := hc.symm.trans hc'
  rcases kind_of_gap_mem hd hv hmem with rfl | hlayout
  · -- a string that goes on behind another one would have the closing quote of that inside
    obtain rfl : kind = .string := admits_of_openingOf hopening
    obtain ⟨x, -, hx⟩ := mem_string.1 hw
    cases hx
    exact quote_notMem_of_prefix hv hp (by simp)
  · cases kind' with
    | comment =>
      rcases admits_of_openingOf hopening with ⟨s, rfl⟩ | rfl | rfl
      · -- one stroke in front of the gap is no comment
        obtain ⟨x, -, hx⟩ := mem_comment.1 hv
        cases hx
        obtain rfl := spelling_slash (Eq.symm hw)
        obtain rfl : d = '/' := (List.cons_prefix_cons.1 hwv).1
        rcases hd with h | h <;> cases h
      · cases hkind
      · exact absurd hw (Language.notMem_zero _)
    | newline =>
      obtain rfl : kind = .newline := admits_of_openingOf hopening
      cases hkind
    | blanks =>
      obtain rfl : kind = .blanks := admits_of_openingOf hopening
      cases hkind
    | _ => cases hlayout

/-- **A lexeme stays the longest one in front of a gap**, whatever it stood in front of. -/
theorem Longest.before_gap (h : Longest kind w cs) (hkind : kind.isLayout = false) (hrest : EndsLexeme rest) :
    Longest kind w (w ++ rest) := by
  obtain ⟨hw, -, -, hkey⟩ := h
  refine ⟨hw, List.prefix_append w rest, fun kind' v hv hp => ?_, hkey⟩
  cases rest with
  | nil =>
    rw [List.append_nil] at hp
    exact hp.length_le
  | cons d rest =>
    rcases prefix_or_goes_on hp with hp | hp
    · exact hp.length_le
    · exact absurd hp (not_prefix_of_gap (hrest d rfl) hw hkind hv)

end
end Segment

/-! ## The scan of layout -/

namespace Scan

theorem ofChars_of_layout {kind : TokenKind} {w rest : List Char} (h : Longest kind w (w ++ rest))
    (hkind : kind.isLayout = true) (line : Nat) : ofChars line (w ++ rest) = ofChars (line + w.count '\n') rest := by
  rw [ofChars, Segment.split_of_longest h, ofSegments]
  simp only [hkind, if_true]
  rfl

theorem ofChars_newline (rest : List Char) (line : Nat) : ofChars line ('\n' :: rest) = ofChars (line + 1) rest :=
  ofChars_of_layout (w := ['\n']) (Segment.longest_newline rest) rfl line

theorem ofChars_blanks {w rest : List Char} (hw : ∀ d ∈ w, isBlank d = true)
    (hrest : ∀ d, rest.head? = some d → isBlank d = false) (line : Nat) : ofChars line (w ++ rest) = ofChars line rest := by
  cases w with
  | nil => rfl
  | cons c w =>
    obtain ⟨hc, hw'⟩ := List.forall_mem_cons.1 hw
    have hflat : (c :: w).count '\n' = 0 := List.count_eq_zero.2 fun hn => absurd (hw _ hn) (by decide)
    have hscan := ofChars_of_layout (w := c :: w) (Segment.longest_blanks hc hw' (Segment.run_append hw' hrest)) rfl line
    rwa [hflat] at hscan

/-- A blank is dropped, also in front of others, with which it is one piece. -/
theorem ofChars_cons_blank {c : Char} (hc : isBlank c = true) (cs : List Char) (line : Nat) :
    ofChars line (c :: cs) = ofChars line cs := by
  obtain ⟨w, rest, rfl, hw, hrest, -⟩ := Segment.exists_run isBlank cs
  rw [ofChars_blanks hw hrest]
  exact ofChars_blanks (w := c :: w) (List.forall_mem_cons.2 ⟨hc, hw⟩) hrest line

theorem ofChars_comment {w : List Char} (hw : '\n' ∉ w) (rest : List Char) (line : Nat) :
    ofChars line ('/' :: '/' :: (w ++ '\n' :: rest)) = ofChars (line + 1) rest := by
  have hline : ∀ d, ('\n' :: rest).head? = some d → d = '\n' := fun d hd => (Option.some.inj hd).symm
  have hlongest := Segment.longest_comment hw hline
  have hflat : ('/' :: '/' :: w).count '\n' = 0 := List.count_eq_zero.2 (by simpa using hw)
  have hscan := ofChars_of_layout (w := '/' :: '/' :: w) hlongest rfl line
  rw [hflat, ofChars_newline] at hscan
  exact hscan

/-- **Layout comes to its line ends.** -/
theorem ofChars_layout {cs : List Char} (h : IsLayout cs) (rest : List Char) (line : Nat) :
    ofChars line (cs ++ rest) = ofChars (line + cs.count '\n') rest := by
  induction h generalizing line with
  | nil => rfl
  | @blank c cs hc _ ih =>
    have hne : c ≠ '\n' := by
      rintro rfl
      cases hc
    rw [List.cons_append, ofChars_cons_blank hc, ih, List.count_cons_of_ne hne]
  | newline _ ih =>
    rw [List.cons_append, ofChars_newline, ih, List.count_cons_self, Nat.add_right_comm, Nat.add_assoc]
  | @comment w cs hw _ ih =>
    have hcount : ('/' :: '/' :: (w ++ '\n' :: cs)).count '\n' = cs.count '\n' + 1 := by
      simp [List.count_append, List.count_eq_zero.2 hw]
    rw [List.cons_append, List.cons_append, List.append_assoc, List.cons_append, ofChars_comment hw, ih, hcount,
      Nat.add_right_comm, Nat.add_assoc]

end Scan

/-! ## Tokens -/

namespace Scan

/-- **A token is scanned as itself in front of a gap**, on the line where its lexeme ends there. -/
theorem ofChars_isLexeme {t : Token} (h : t.IsLexeme) {rest : List Char} (hrest : EndsLexeme rest) (line : Nat) :
    ofChars line (t.lexeme.toList ++ rest) =
      behind [t.relined fun _ => line + t.lexeme.toList.count '\n'] (ofChars (line + t.lexeme.toList.count '\n') rest) := by
  obtain ⟨⟨cs, hlongest⟩, hlayout, hliteral⟩ := h
  have hsplit := Segment.split_of_longest (hlongest.before_gap hlayout hrest)
  rw [ofChars_of_split hsplit hlayout, Token.ofLexeme, String.ofList_toList, ← hliteral]
  rfl

/-- **Tokens that are laid out are scanned as the same tokens on other lines.** -/
theorem ofChars_laysOut {ts : List Token} {cs : List Char} (h : LaysOut ts cs) (hts : ∀ t ∈ ts, t.IsLexeme) (line : Nat) :
    ∃ us line', ofChars line cs = ⟨us ++ [Token.eof line'], []⟩ ∧
      us.map (fun u => (u.kind, u.lexeme, u.literal)) = ts.map (fun t => (t.kind, t.lexeme, t.literal)) := by
  induction h generalizing line with
  | nothing => exact ⟨[], line, ofChars_nil line, rfl⟩
  | @last t =>
    have hscan := ofChars_isLexeme (hts t List.mem_cons_self) endsLexeme_nil line
    rw [List.append_nil, ofChars_nil] at hscan
    exact ⟨[t.relined _], _, hscan, rfl⟩
  | @more t u ts sep cs hsep _ ih =>
    obtain ⟨ht, hts⟩ := List.forall_mem_cons.1 hts
    obtain ⟨us, line', hus, hmap⟩ := ih hts (line + t.lexeme.toList.count '\n' + sep.count '\n')
    refine ⟨(t.relined fun _ => line + t.lexeme.toList.count '\n') :: us, line', ?_, ?_⟩
    · rw [List.append_assoc, ofChars_isLexeme ht (hsep.endsLexeme cs), ofChars_layout hsep.layout, hus]
      rfl
    · rw [List.map_cons, hmap]
      rfl

end Scan

/-! ## Reading -/

/-- **Tokens that differ in lines are read alike**: as the same tree but for lines, or refused for the same reason at the same
place. -/
theorem Parsing.ofTokens_relined (budget : Nat) (φ : Nat → Nat) (ts : List Token) :
    (Expr.ofTokens budget (ts.map (Token.relined φ))).mapError (fun err => (err.cause, err.location)) =
      ((Expr.ofTokens budget ts).map (Expr.relined φ)).mapError (fun err => (err.cause, err.location)) := by
  rcases ofTokens_alike budget (alike_map (φ := φ) ts) with ⟨e, he, he'⟩ | ⟨err, err', he, he', hsame⟩
  · rw [he, he']
    rfl
  · rw [he, he']
    exact congrArg Except.error (Prod.ext hsame.cause hsame.location)

theorem Token.map_relined_eq {ts us : List Token}
    (h : us.map (fun u => (u.kind, u.lexeme, u.literal)) = ts.map (fun t => (t.kind, t.lexeme, t.literal))) (line : Nat) :
    us.map (Token.relined fun _ => line) = ts.map (Token.relined fun _ => line) := by
  have hlines := congrArg (List.map fun (kind, lexeme, literal) => Token.mk kind lexeme literal line) h
  rw [List.map_map, List.map_map] at hlines
  exact hlines

/-- **Tokens survive another layout.**  The tokens of a text, its faults left out, may be written out with any separators between
them: the scan of that has no error, and it has the same kinds, lexemes and literals in the same order.  Under every
budget both lists are read as the same tree but for lines, or refused for the same reason at the same place. -/
theorem Scan.ofText_laysOut (source text : String)
    (h : LaysOut ((ofText source).tokens.filter (·.kind ≠ .eof)) text.toList) :
    (ofText text).errors = [] ∧
      (∃ us line, (ofText text).tokens = us ++ [Token.eof line] ∧ us.map (fun u => (u.kind, u.lexeme, u.literal)) =
        ((ofText source).tokens.filter (·.kind ≠ .eof)).map (fun t => (t.kind, t.lexeme, t.literal))) ∧
      ∀ budget,
        ((Expr.ofTokens budget (ofText text).tokens).map (Expr.relined fun _ => 0)).mapError
            (fun err => (err.cause, err.location)) =
          ((Expr.ofTokens budget (ofText source).tokens).map (Expr.relined fun _ => 0)).mapError
            (fun err => (err.cause, err.location)) := by
  obtain ⟨ts, line, hts, -⟩ := ofSegments_tokens 1 (split source.toList)
  have htokens : (ofText source).tokens = ts ++ [Token.eof line] := hts
  have hne : ∀ t ∈ ts, t.kind ≠ .eof := fun t => kind_ne_eof_of_mem hts
  have hfilter : (ofText source).tokens.filter (·.kind ≠ .eof) = ts := by
    rw [htokens, List.filter_append, List.filter_eq_self.2 (by simpa using hne)]
    exact List.append_nil ts
  have hlexeme : ∀ t ∈ ts, t.IsLexeme :=
    fun t ht => isLexeme_of_mem (htokens ▸ List.mem_append_left _ ht) (hne t ht)
  rw [hfilter] at h ⊢
  obtain ⟨us, line', hscan, hsame⟩ := ofChars_laysOut h hlexeme 1
  have hscan : ofText text = ⟨us ++ [Token.eof line'], []⟩ := hscan
  have hrelined : (ofText text).tokens.map (Token.relined fun _ => 0) = (ofText source).tokens.map (Token.relined fun _ => 0) := by
    rw [hscan, htokens, List.map_append, List.map_append, Token.map_relined_eq hsame]
    rfl
  refine ⟨by rw [hscan], ⟨us, line', by rw [hscan], hsame⟩, fun budget => ?_⟩
  rw [← Parsing.ofTokens_relined, ← Parsing.ofTokens_relined, hrelined]

/-- Two strokes in a string stay there, a comment comes between tokens, and a stray character is left out. -/
theorem Scan.ofText_laysOut_comparison :
    LaysOut ((ofText "true==\"a//b\"#").tokens.filter (·.kind ≠ .eof)) "true // note\n\t==\r\n\"a//b\"".toList ∧
      (ofText "true // note\n\t==\r\n\"a//b\"").errors = [] ∧
      ((Expr.ofTokens 9 (ofText "true // note\n\t==\r\n\"a//b\"").tokens).map (Expr.relined fun _ => 0)).mapError
          (fun err => (err.cause, err.location)) =
        .ok (.binaryAt (.literal (.bool true)) .equal (.literal (.string "a//b")) 0) := by
  have hscan : (ofText "true==\"a//b\"#").tokens =
      [⟨.keyword .trueWord, "true", none, 1⟩, Symbol.equalEqual.token 1, ⟨.string, "\"a//b\"", some (.string "a//b"), 1⟩,
        Token.eof 1] := by decide +kernel
  have hparse : Expr.ofTokens 9 [⟨.keyword .trueWord, "true", none, 1⟩, Symbol.equalEqual.token 1,
      ⟨.string, "\"a//b\"", some (.string "a//b"), 1⟩, Token.eof 1] =
      .ok (.binaryAt (.literal (.bool true)) .equal (.literal (.string "a//b")) 1) := by cbv
  have hnote : IsSeparator (' ' :: '/' :: '/' :: (" note".toList ++ ['\n', '\t'])) :=
    ⟨.blank rfl (.comment (by decide) (.blank rfl .nil)), ' ', _, rfl, .inl rfl⟩
  have hline : IsSeparator ['\r', '\n'] := ⟨.blank rfl (.newline .nil), '\r', _, rfl, .inl rfl⟩
  have hlays : LaysOut ((ofText "true==\"a//b\"#").tokens.filter (·.kind ≠ .eof))
      "true // note\n\t==\r\n\"a//b\"".toList := by
    rw [hscan]
    exact .more hnote (.more hline .last)
  obtain ⟨herrors, -, hread⟩ := ofText_laysOut "true==\"a//b\"#" "true // note\n\t==\r\n\"a//b\"" hlays
  refine ⟨hlays, herrors, (hread 9).trans ?_⟩
  rw [hscan, hparse]
  rfl

end LoxExpr
