import LoxExpr.Run
import LoxExpr.Proofs.Lexemes
import LoxExpr.Proofs.Places
/-!
# Tokenization: what a scan makes of a text

`FirstPiece` says what a text is to begin with, without a word on how that is found: its longest lexeme, or what is wrong
with it.  There is always one such piece, and only one, so a text has one tokenization, which is what `Segment.split` cuts.

The tokens of a scan are then the lexemes other than layout, and its errors are the faults.  The line of each is counted in
the text up to its end, for no piece has a line end in it but a line end itself and a string, closed or left open.
-/
namespace LoxExpr
namespace Segment

/-! ## The first piece -/

/-- **What a text is to begin with**: its longest lexeme; or, from a quote that no later quote closes, all of it; or one
character that no lexeme begins with. -/
inductive FirstPiece : List Char → Segment → Prop
  | lexeme {kind w cs} : Longest kind w cs → FirstPiece cs ⟨.ok kind, w⟩
  | unterminated {cs} : '"' ∉ cs → FirstPiece ('"' :: cs) ⟨.error .unterminatedString, '"' :: cs⟩
  | unexpected {c cs} : c ≠ '"' → (∀ kind w, w ∈ lexemes kind → ¬ w <+: c :: cs) →
      FirstPiece (c :: cs) ⟨.error .unexpectedCharacter, [c]⟩

theorem firstPiece_of_cut {kind : TokenKind} {c : Char} {w rest : List Char} (hcut : cut c (w ++ rest) = (.ok kind, w.length))
    (h : Longest kind (c :: w) (c :: (w ++ rest))) :
    FirstPiece (c :: (w ++ rest)) ⟨(cut c (w ++ rest)).1, c :: (w ++ rest).take (cut c (w ++ rest)).2⟩ := by
  rw [hcut, List.take_left]
  exact .lexeme h

theorem firstPiece_cut (c : Char) (cs : List Char) : FirstPiece (c :: cs) ⟨(cut c cs).1, c :: cs.take (cut c cs).2⟩ := by
  have hc := opening_spec c
  cases ho : opening c with
  | quote =>
    rw [ho] at hc
    obtain rfl : c = '"' := hc
    by_cases hq : '"' ∈ cs
    · obtain ⟨w, rest, rfl, hw⟩ := List.eq_append_cons_of_mem hq
      have hcut : cut '"' (w ++ ['"'] ++ rest) = (.ok .string, (w ++ ['"']).length) := by
        rw [cut_eq, List.append_assoc, List.singleton_append]
        simp only [ho, cutString, List.contains_iff_mem.2 hq, if_true, run_quote hw, List.length_append, List.length_singleton]
      have := firstPiece_of_cut hcut (longest_string hw)
      rwa [List.append_assoc, List.singleton_append] at this
    · have hcut : cut '"' cs = (.error .unterminatedString, cs.length) := by
        rw [cut_eq]
        simp only [ho, cutString, List.contains_iff_mem, hq, if_false]
      rw [hcut, List.take_length]
      exact .unterminated hq
  | lineEnd =>
    rw [ho] at hc
    obtain rfl : c = '\n' := hc
    exact firstPiece_of_cut (w := []) (by rw [cut_eq, ho]; rfl) (longest_newline cs)
  | blank =>
    rw [ho] at hc
    obtain ⟨w, rest, rfl, hw, -, hrun⟩ := exists_run isBlank cs
    refine firstPiece_of_cut ?_ (longest_blanks hc hw hrun)
    rw [cut_eq, ho, ← hrun]
  | digit =>
    rw [ho] at hc
    obtain ⟨w, rest, rfl, hw, hrest, -⟩ := exists_run Char.isDigit cs
    by_cases hpoint : ∃ places, rest = '.' :: places ∧ run Char.isDigit places ≠ 0
    · obtain ⟨places, rfl, hne⟩ := hpoint
      obtain ⟨es, rest, rfl, hdigits, hrest, hrun⟩ := exists_run Char.isDigit places
      have hes : es ≠ [] := fun h => hne (hrun.trans (by rw [h]; rfl))
      have hcut : cut c (w ++ '.' :: es ++ rest) = (.ok .number, (w ++ '.' :: es).length) := by
        rw [cut_eq, ho, ← cutNumber_fraction hw hes hdigits hrest]
      have := firstPiece_of_cut hcut (longest_fraction hc hw hes hdigits hrest)
      rwa [List.append_assoc, List.cons_append] at this
    · have hzero : ∀ places, rest = '.' :: places → run Char.isDigit places = 0 :=
        fun places hp => by_contra fun hne => hpoint ⟨places, hp, hne⟩
      refine firstPiece_of_cut ?_ (longest_whole hc hw hrest hzero)
      rw [cut_eq, ho, cutNumber_whole hw hrest hzero]
  | letter =>
    rw [ho] at hc
    obtain ⟨w, rest, rfl, hw, -, hrun⟩ := exists_run isWordPart cs
    refine firstPiece_of_cut ?_ (longest_word hc hw hrun)
    rw [cut_eq, ho]
    simp only [hrun, List.take_left]
  | mark =>
    by_cases hcomment : c = '/' ∧ cs.head? = some '/'
    · obtain ⟨rfl, hslash⟩ := hcomment
      obtain ⟨cs, rfl⟩ : ∃ cs', cs = '/' :: cs' := by
        cases cs with
        | nil => cases hslash
        | cons d cs => cases hslash; exact ⟨cs, rfl⟩
      obtain ⟨w, rest, rfl, hw, hrest, hrun⟩ := exists_run (· ≠ '\n') cs
      have hrun : run (· ≠ '\n') ('/' :: w ++ rest) = ('/' :: w).length :=
        run_append (List.forall_mem_cons.2 ⟨rfl, hw⟩) hrest
      refine firstPiece_of_cut (w := '/' :: w) ?_ (longest_comment ?_ ?_)
      · rw [cut_eq, ho, ← hrun]; rfl
      · exact fun hline => by simpa using hw '\n' hline
      · exact fun d hd => by simpa using hrest d hd
    · cases hsymbol : symbolAt? c cs with
      | some s =>
        obtain ⟨w, hs, ⟨rest, rfl⟩, hmax⟩ := symbolAt?_eq_some hsymbol
        have hlen : s.spelling.length - 1 = w.length := by
          rw [← String.length_toList, hs, List.length_cons, Nat.add_sub_cancel]
        refine firstPiece_of_cut ?_ (longest_symbol ho hs hcomment hmax)
        rw [cut_eq, ho]
        simp only [hcomment, if_false, hsymbol, hlen]
      | none =>
        have hcut : cut c cs = (.error .unexpectedCharacter, 0) := by
          rw [cut_eq, ho]
          simp only [hcomment, if_false, hsymbol]
        rw [hcut, List.take_zero]
        rw [ho] at hc
        refine .unexpected hc fun kind w hw hp => ?_
        obtain ⟨c', x, rfl, hk⟩ := opening_of_mem hw
        obtain ⟨rfl, hx⟩ := List.cons_prefix_cons.1 hp
        obtain ⟨s, hs⟩ := eq_symbol_of_mark ho hk.symm hw hx hcomment
        exact symbolAt?_eq_none hsymbol s hs hx

/-- Two rules with a lexeme in common read words, one of them a keyword. -/
theorem kind_eq_of_mem {k k' : TokenKind} {w : List Char} (h : w ∈ lexemes k) (h' : w ∈ lexemes k') : k = k' ∨
    (k = .identifier ∧ ∃ y : Keyword, w = y.spelling.toList) ∨ (k' = .identifier ∧ ∃ y : Keyword, w = y.spelling.toList) := by
  obtain ⟨c, x, rfl, -⟩ := opening_of_mem h
  have hk := admits_of_openingOf (openingOf_of_mem h)
  have hk' := admits_of_openingOf (openingOf_of_mem h')
  have hnot : ∀ s : Symbol, c :: x = s.spelling.toList → c :: x ∉ lexemes .comment := by
    intro s hs hcom
    obtain ⟨v, -, hv⟩ := mem_comment.1 hcom
    obtain ⟨rfl, rfl⟩ := List.cons.inj hv
    rcases spelling_tail hs.symm with h | h <;> cases h
  cases ho : opening c with
  | quote | lineEnd | blank | digit =>
    rw [ho] at hk hk'
    exact .inl (hk.trans hk'.symm)
  | letter =>
    rw [ho] at hk hk'
    rcases hk with ⟨y, rfl⟩ | rfl <;> rcases hk' with ⟨y', rfl⟩ | rfl
    · have hy : y.spelling.toList = y'.spelling.toList := Eq.trans (Eq.symm h) h'
      exact .inl ((wordKind_spelling y).symm.trans (by rw [hy]; exact wordKind_spelling y'))
    · exact .inr (.inr ⟨rfl, y, h⟩)
    · exact .inr (.inl ⟨rfl, y', h'⟩)
    · exact .inl rfl
  | mark =>
    rw [ho] at hk hk'
    rcases hk with ⟨s, rfl⟩ | rfl | rfl
    · rcases hk' with ⟨s', rfl⟩ | rfl | rfl
      · have hs : s.spelling.toList = s'.spelling.toList := Eq.trans (Eq.symm h) h'
        exact .inl (congrArg _ (Option.some.inj ((find?_spelling s).symm.trans (by rw [hs]; exact find?_spelling s'))))
      · exact absurd h' (hnot s h)
      · exact absurd h' (Language.notMem_zero _)
    · rcases hk' with ⟨s', rfl⟩ | rfl | rfl
      · exact absurd h (hnot s' h')
      · exact .inl rfl
      · exact absurd h' (Language.notMem_zero _)
    · exact absurd h (Language.notMem_zero _)

theorem Longest.unique {k k' : TokenKind} {w w' cs : List Char} (h : Longest k w cs) (h' : Longest k' w' cs) :
    k = k' ∧ w = w' := by
  obtain ⟨hw, hp, hmax, hkey⟩ := h
  obtain ⟨hw', hp', hmax', hkey'⟩ := h'
  have hlen : w.length = w'.length := Nat.le_antisymm (hmax' k w hw hp) (hmax k' w' hw' hp')
  obtain rfl : w = w' := (List.prefix_of_prefix_length_le hp hp' (Nat.le_of_eq hlen)).eq_of_length hlen
  refine ⟨?_, rfl⟩
  rcases kind_eq_of_mem hw hw' with h | ⟨hid, y, hy⟩ | ⟨hid, y, hy⟩
  · exact h
  · exact absurd hy (hkey hid y)
  · exact absurd hy (hkey' hid y)

theorem Longest.mem_of_quote {k : TokenKind} {w cs : List Char} (h : Longest k w ('"' :: cs)) : '"' ∈ cs := by
  obtain ⟨hw, hp, -⟩ := h
  obtain ⟨c, x, rfl, -⟩ := opening_of_mem hw
  obtain ⟨rfl, hx⟩ := List.cons_prefix_cons.1 hp
  obtain rfl : k = .string := admits_of_openingOf (openingOf_of_mem hw)
  obtain ⟨v, -, hv⟩ := mem_string.1 hw
  cases hv
  exact hx.subset (by simp)

theorem FirstPiece.unique {cs : List Char} {s s' : Segment} (h : FirstPiece cs s) (h' : FirstPiece cs s') : s = s' := by
  cases h with
  | lexeme h =>
    cases h' with
    | lexeme h' =>
      obtain ⟨rfl, rfl⟩ := h.unique h'
      rfl
    | unterminated hq => exact absurd h.mem_of_quote hq
    | unexpected _ hno => exact absurd h.2.1 (hno _ _ h.1)
  | unterminated hq =>
    cases h' with
    | lexeme h' => exact absurd h'.mem_of_quote hq
    | unterminated => rfl
    | unexpected hne => exact absurd rfl hne
  | unexpected hne hno =>
    cases h' with
    | lexeme h' => exact absurd h'.2.1 (hno _ _ h'.1)
    | unterminated => exact absurd rfl hne
    | unexpected => rfl

/-! ## The whole text -/

/-- **The tokenization of a text**: its pieces, each the first one of what is left. -/
inductive Tokenizes : List Char → List Segment → Prop
  | nil : Tokenizes [] []
  | cons {cs s rest ss} : cs = s.text ++ rest → FirstPiece cs s → Tokenizes rest ss → Tokenizes cs (s :: ss)

/-- No string is left open. -/
def StringsClosed (ss : List Segment) : Prop := ∀ s ∈ ss, s.sort ≠ .error .unterminatedString

theorem FirstPiece.text_ne_nil {cs : List Char} {s : Segment} (h : FirstPiece cs s) : s.text ≠ [] := by
  cases h with
  | lexeme h =>
    obtain ⟨c, x, rfl, -⟩ := opening_of_mem h.1
    exact List.cons_ne_nil _ _
  | unterminated => exact List.cons_ne_nil _ _
  | unexpected => exact List.cons_ne_nil _ _

theorem tokenizes_split (cs : List Char) : Tokenizes cs (split cs) := by
  fun_induction split cs with
  | case1 => exact .nil
  | case2 c cs ih =>
    refine .cons ?_ (firstPiece_cut c cs) ih
    rw [List.cons_append, List.take_append_drop]

theorem Tokenizes.unique {cs : List Char} {ss ss' : List Segment} (h : Tokenizes cs ss) (h' : Tokenizes cs ss') :
    ss = ss' := by
  induction h generalizing ss' with
  | nil =>
    cases h' with
    | nil => rfl
    | cons hcs hp => exact absurd (List.append_eq_nil_iff.1 hcs.symm).1 hp.text_ne_nil
  | @cons cs s rest ss hcs hp _ ih =>
    cases h' with
    | nil => exact absurd (List.append_eq_nil_iff.1 hcs.symm).1 hp.text_ne_nil
    | cons hcs' hp' ht' =>
      obtain rfl := hp.unique hp'
      obtain rfl := List.append_cancel_left (hcs.symm.trans hcs')
      rw [ih ht']

theorem Tokenizes.flatMap_text {cs : List Char} {ss : List Segment} (h : Tokenizes cs ss) : ss.flatMap text = cs := by
  rw [h.unique (tokenizes_split cs), flatMap_split]

/-- A piece that is no fault is the longest lexeme in front of some text. -/
theorem Tokenizes.exists_longest {cs : List Char} {ss : List Segment} (h : Tokenizes cs ss) {s : Segment} (hs : s ∈ ss)
    {kind : TokenKind} (hkind : s.sort = .ok kind) : ∃ ds, Longest kind s.text ds := by
  induction h with
  | nil => cases hs
  | @cons _ t _ _ _ hp _ ih =>
    rcases List.mem_cons.1 hs with rfl | hs
    · cases hp with
      | lexeme hl => cases hkind; exact ⟨_, hl⟩
      | unterminated => cases hkind
      | unexpected => cases hkind
    · exact ih hs

theorem Tokenizes.mem_lexemes {cs : List Char} {ss : List Segment} (h : Tokenizes cs ss) {s : Segment} (hs : s ∈ ss)
    {kind : TokenKind} (hkind : s.sort = .ok kind) : s.text ∈ lexemes kind := by
  obtain ⟨ds, hlongest⟩ := h.exists_longest hs hkind
  exact hlongest.1

/-- **A text is cut behind the longest lexeme in front of it.** -/
theorem split_of_longest {kind : TokenKind} {w rest : List Char} (h : Longest kind w (w ++ rest)) :
    split (w ++ rest) = ⟨.ok kind, w⟩ :: split rest :=
  (tokenizes_split _).unique (.cons (s := ⟨.ok kind, w⟩) rfl (.lexeme h) (tokenizes_split rest))

/-! ## Line ends -/

section
variable {cs : List Char} {s : Segment} {ss : List Segment}

/-- **How far a piece moves the count of lines**, sort by sort: a line end by one, and a string, closed or not, by the line ends
in it. -/
def advance (s : Segment) : Nat :=
  match s.sort with
  | .ok .newline => 1
  | .ok .string | .error .unterminatedString => s.text.count '\n'
  | _ => 0

/-- **All other pieces are on one line.** -/
theorem FirstPiece.newlines_eq_advance (h : FirstPiece cs s) : s.newlines = s.advance := by
  cases h with
  | @lexeme kind w _ h =>
    by_cases hn : '\n' ∈ w
    · rcases kind_of_newline_mem h.1 hn with rfl | rfl
      · exact congrArg (List.count '\n') (show w = ['\n'] from h.1)
      · rfl
    · have hflat : newlines ⟨.ok kind, w⟩ = 0 := List.count_eq_zero.2 hn
      cases kind with
      | newline => exact absurd ((show w = ['\n'] from h.1) ▸ List.mem_singleton_self _) hn
      | string => rfl
      | _ => exact hflat
  | unterminated => rfl
  | @unexpected c cs _ hno =>
    have hc : c ≠ '\n' := by
      rintro rfl
      exact hno .newline ['\n'] rfl (List.prefix_append ['\n'] cs)
    exact List.count_eq_zero.2 (by simpa using hc.symm)

theorem Tokenizes.newlines_eq_advance (h : Tokenizes cs ss) : ∀ s ∈ ss, s.newlines = s.advance := by
  induction h with
  | nil => exact fun _ hs => nomatch hs
  | cons _ hp _ ih => exact List.forall_mem_cons.2 ⟨hp.newlines_eq_advance, ih⟩

end
end Segment

/-- **A token that its lexeme makes**, which is the longest one in front of some text. -/
structure Token.IsLexeme (t : Token) : Prop where
  longest : ∃ cs, Segment.Longest t.kind t.lexeme.toList cs
  not_layout : t.kind.isLayout = false
  literal : t.literal = literalOf? t.kind t.lexeme.toList

theorem Token.IsLexeme.mem_lexemes {t : Token} (h : t.IsLexeme) : t.lexeme.toList ∈ Segment.lexemes t.kind := by
  obtain ⟨cs, hlongest⟩ := h.longest
  exact hlongest.1

namespace Scan

open Segment (place Tokenizes)

/-- The closing token is made behind all pieces, and there only. -/
theorem kind_ne_eof_of_mem {cs : List Char} {line line' : Nat} {us : List Token}
    (h : (ofSegments line (Segment.split cs)).tokens = us ++ [Token.eof line']) {u : Token} (hu : u ∈ us) : u.kind ≠ .eof := by
  intro heof
  obtain ⟨us', line'', hus', hmap⟩ := ofSegments_tokens line (Segment.split cs)
  obtain ⟨rfl, -⟩ := List.append_inj' (h.symm.trans hus') rfl
  have hmem : (u.kind, u.lexeme.toList) ∈ (Segment.split cs).filterMap Segment.token? := hmap ▸ List.mem_map_of_mem hu
  obtain ⟨s, hs, htoken⟩ := List.mem_filterMap.1 hmem
  obtain ⟨hsort, -⟩ := Segment.token?_eq_some_iff.1 htoken
  exact absurd ((Segment.tokenizes_split cs).mem_lexemes hs (hsort.trans (congrArg Except.ok heof))) (Language.notMem_zero _)

/-- **The tokens of a scan are lexemes**, all but the closing one. -/
theorem isLexeme_of_mem {source : String} {t : Token} (h : t ∈ (ofText source).tokens) (ht : t.kind ≠ .eof) : t.IsLexeme := by
  have hmem : t ∈ (ofSegments 1 (Segment.split source.toList)).tokens := h
  obtain ⟨s, hs, line', htoken, hlexeme⟩ := (mem_tokens_ofSegments hmem).resolve_left ht
  obtain ⟨hsort, -, hlayout⟩ := Segment.token?_eq_some_iff.1 htoken
  have htext : t.lexeme.toList = s.text := by
    rw [hlexeme]
    exact String.toList_ofList
  refine ⟨?_, hlayout, ?_⟩
  · rw [htext]
    exact (Segment.tokenizes_split _).exists_longest hs hsort
  · rw [htext]
    exact congrArg Token.literal hlexeme

/-- **A scan is the tokenization of its text.**  Every text has one tokenization, whose pieces make up the text.  Its lexemes
other than layout are the tokens, in order and each with its exact text, and the closing token follows them; its faults are
the errors, in order, added to what was reported before. -/
theorem perform_scan_tokenization (source : String) (sink : Diagnostics) :
    ∃ ss, Tokenizes source.toList ss ∧ (∀ ss', Tokenizes source.toList ss' → ss' = ss) ∧
      ss.flatMap Segment.text = source.toList ∧ (∀ s ∈ ss, s.text ≠ []) ∧
      ∃ (us : List Token) (line : Nat) (errors : List LexError), (Step.scan source).perform sink =
          (.tokens (us ++ [Token.eof line]), ⟨sink.entries ++ errors.map Diagnostic.lex⟩) ∧
        us.map (fun t => (t.kind, t.lexeme.toList)) = ss.filterMap Segment.token? ∧ (∀ u ∈ us, u.kind ≠ .eof) ∧
        errors.map LexError.cause = ss.filterMap Segment.fault? := by
  have ht := Segment.tokenizes_split source.toList
  obtain ⟨us, line, hus, hmap⟩ := ofSegments_tokens 1 (Segment.split source.toList)
  refine ⟨_, ht, fun ss' h => h.unique ht, ht.flatMap_text, fun s => Segment.text_ne_nil, us, line,
    (ofText source).errors, ?_, hmap, fun u => kind_ne_eof_of_mem hus, ofSegments_errors 1 _⟩
  rw [← hus]
  rfl

/-- **Lines are exact.**  A text has one tokenization, whose pieces are slices of it.  What a scan answers and reports are these
pieces in order, each on the line that is one more than the line ends from the beginning of the text to the end of its slice,
and the closing token on the line that is one more than all line ends.  This is so whatever the pieces before are; only
line ends and strings, closed or left open, move the count. -/
theorem perform_scan_lines (source : String) (sink : Diagnostics) :
    ∃ ss, Tokenizes source.toList ss ∧ (∀ ss', Tokenizes source.toList ss' → ss' = ss) ∧
      (place [] ss).map Placed.piece = ss ∧
      (∀ p ∈ place [] ss, ∃ behind, source.toList = p.before ++ p.piece.text ++ behind) ∧
      (Step.scan source).perform sink =
        (.tokens ((place [] ss).filterMap (fun p => p.piece.token?.map fun (kind, lexeme) =>
            Token.ofLexeme kind lexeme (1 + (p.before ++ p.piece.text).count '\n')) ++
          [Token.eof (1 + source.toList.count '\n')]),
        ⟨sink.entries ++ ((place [] ss).filterMap (fun p => p.piece.fault?.map fun cause =>
          LexError.mk cause (1 + (p.before ++ p.piece.text).count '\n'))).map Diagnostic.lex⟩) ∧
      ∀ s ∈ ss, s.text.count '\n' = s.advance := by
  have ht := Segment.tokenizes_split source.toList
  have hscan := ofSegments_place 1 [] (Segment.split source.toList)
  rw [List.nil_append, Segment.flatMap_split] at hscan
  refine ⟨_, ht, fun ss' h => h.unique ht, Segment.map_piece_place _ _, fun p hp => ?_, ?_, ht.newlines_eq_advance⟩
  · obtain ⟨behind, hbehind⟩ := Segment.prefix_of_mem_place hp
    rw [List.nil_append, Segment.flatMap_split] at hbehind
    exact ⟨behind, hbehind.symm⟩
  · have htext : ofText source = _ := hscan
    rw [Step.perform, htext]
    rfl

end Scan
end LoxExpr
