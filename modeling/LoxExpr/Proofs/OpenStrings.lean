import LoxExpr.Proofs.Tokenization
/-!
# Open strings: the quote that no other closes

A string that is left open takes all the text from its quote on, so it is the last piece (`Tokenizes.closed_or_open`).  The
pieces before it are what the text before it is cut into by itself: a text that ends where pieces end has these pieces
(`Tokenizes.of_append`).  And its quote can be told from the others, for each of those is in a comment or in a string that
is closed (`Tokenizes.openQuote_iff`).
-/
namespace LoxExpr

/-- The piece takes in the character at `n`. -/
def Placed.Covers (p : Placed) (n : Nat) : Prop := p.before.length ≤ n ∧ n < p.upTo.length

namespace Segment

/-- **A quote that stays open** in a text with the pieces `ss`: no comment and no closed string takes it in, and no quote
follows it. -/
structure OpenQuote (cs : List Char) (ss : List Segment) (pre post : List Char) : Prop where
  text : cs = pre ++ '"' :: post
  last : '"' ∉ post
  outside : ∀ p ∈ place [] ss, p.piece.sort = .ok .comment ∨ p.piece.sort = .ok .string → ¬ p.Covers pre.length

/-- The piece that a quote begins which nothing closes. -/
def openString (w : List Char) : Segment := ⟨.error .unterminatedString, '"' :: w⟩

section
variable {cs ds pre post w : List Char} {s : Segment} {ss us ts : List Segment}

/-! ## The last piece -/

/-- **All strings are closed, or the last piece is one that is not.** -/
theorem Tokenizes.closed_or_open (h : Tokenizes cs ss) :
    StringsClosed ss ∨ ∃ us w, ss = us ++ [openString w] ∧ '"' ∉ w ∧ StringsClosed us := by
  induction h with
  | nil => exact .inl fun _ hs => nomatch hs
  | @cons cs s rest ss hcs hp ht ih =>
    have hone : s.sort ≠ .error .unterminatedString ∨ ∃ w, s = openString w ∧ '"' ∉ w ∧ rest = [] := by
      cases hp with
      | lexeme => exact .inl nofun
      | unterminated hq => exact .inr ⟨_, rfl, hq, by simpa using hcs.symm⟩
      | unexpected => exact .inl nofun
    rcases hone with hs | ⟨w, rfl, hw, rfl⟩
    · rcases ih with hclosed | ⟨us, w, rfl, hw, hus⟩
      · exact .inl (List.forall_mem_cons.2 ⟨hs, hclosed⟩)
      · exact .inr ⟨s :: us, w, rfl, hw, List.forall_mem_cons.2 ⟨hs, hus⟩⟩
    · obtain rfl := ht.unique .nil
      exact .inr ⟨[], w, rfl, hw, fun _ hs => nomatch hs⟩

/-! ## The text before it -/

/-- A piece is the first one also of a text that ends sooner, unless it is what takes all. -/
theorem FirstPiece.of_append (h : FirstPiece (cs ++ ds) s) (hs : s.sort ≠ .error .unterminatedString) (hp : s.text <+: cs) :
    FirstPiece cs s := by
  generalize htext : cs ++ ds = text at h
  cases h with
  | lexeme h =>
    obtain ⟨hw, -, hmax, hkey⟩ := h
    exact .lexeme ⟨hw, hp, fun kind' v hv hv' => hmax kind' v hv (htext ▸ hv'.trans (List.prefix_append cs ds)), hkey⟩
  | unterminated => exact absurd rfl hs
  | @unexpected c cs' hne hno =>
    obtain ⟨x, rfl⟩ := hp
    exact .unexpected hne fun kind v hv hv' => hno kind v hv (htext ▸ hv'.trans (List.prefix_append _ ds))

/-- **A text that ends where pieces end has these pieces.** -/
theorem Tokenizes.of_append (h : Tokenizes cs (us ++ ts)) (hcs : cs = us.flatMap text ++ ds) (hus : StringsClosed us) :
    Tokenizes (us.flatMap text) us := by
  induction us generalizing cs with
  | nil => exact .nil
  | cons s us ih =>
    obtain ⟨hs, hus⟩ := List.forall_mem_cons.1 hus
    rw [List.flatMap_cons] at hcs ⊢
    cases h with
    | @cons _ _ rest _ htext hp ht =>
      have hrest : rest = us.flatMap text ++ ds :=
        List.append_cancel_left (htext.symm.trans (hcs.trans (List.append_assoc _ _ _)))
      exact .cons rfl (FirstPiece.of_append (hcs ▸ hp) hs (List.prefix_append _ _)) (ih ht hrest hus)

theorem Tokenizes.text_ne_nil (h : Tokenizes cs ss) (hs : s ∈ ss) : s.text ≠ [] := by
  rw [h.unique (tokenizes_split cs)] at hs
  exact Segment.text_ne_nil hs

theorem Tokenizes.text_eq (h : Tokenizes cs (us ++ [openString w])) : cs = us.flatMap Segment.text ++ '"' :: w := by
  rw [← h.flatMap_text, List.flatMap_append, List.flatMap_singleton]
  rfl

theorem Tokenizes.before_open (h : Tokenizes cs (us ++ [openString w])) (hus : StringsClosed us) :
    Tokenizes (us.flatMap Segment.text) us :=
  h.of_append h.text_eq hus

/-! ## The quote -/

theorem append_quote_inj {pre' post' : List Char} (h : pre ++ '"' :: post = pre' ++ '"' :: post') (hpost : '"' ∉ post)
    (hpost' : '"' ∉ post') : pre = pre' ∧ post = post' := by
  have hlater : ∀ {a x y : List Char}, '"' ∉ x → '"' :: x = a ++ '"' :: y → a = [] := by
    intro a x y hx ha
    cases a with
    | nil => rfl
    | cons c a => exact absurd (by rw [(List.cons.inj ha).2]; simp) hx
  rcases List.append_eq_append_iff.1 h with ⟨a, rfl, ha⟩ | ⟨a, rfl, ha⟩
  · obtain rfl := hlater hpost ha
    exact ⟨(List.append_nil pre).symm, (List.cons.inj ha).2⟩
  · obtain rfl := hlater hpost' ha
    exact ⟨List.append_nil pre', (List.cons.inj ha).2.symm⟩

/-- **Each character is in one of the pieces**, which takes in its place. -/
theorem exists_covers {before : List Char} {d : Char} (h : before ++ ss.flatMap Segment.text = pre ++ d :: post)
    (hle : before.length ≤ pre.length) : ∃ p ∈ place before ss, p.Covers pre.length ∧ d ∈ p.piece.text := by
  induction ss generalizing before with
  | nil =>
    have hlen := congrArg List.length h
    simp only [List.flatMap_nil, List.append_nil, List.length_append, List.length_cons] at hlen
    omega
  | cons s ss ih =>
    rw [List.flatMap_cons, ← List.append_assoc] at h
    rcases Nat.lt_or_ge pre.length (before ++ s.text).length with hlt | hge
    · refine ⟨⟨before, s⟩, List.mem_cons_self, ⟨hle, hlt⟩, ?_⟩
      have hd : (before ++ s.text)[pre.length]? = some d := by
        rw [← List.getElem?_append_left hlt, h, List.getElem?_append_right (Nat.le_refl _), Nat.sub_self]
        rfl
      rw [List.getElem?_append_right hle] at hd
      exact List.mem_of_getElem? hd
    · obtain ⟨p, hp, hcovers, hd⟩ := ih h hge
      exact ⟨p, List.mem_cons_of_mem _ hp, hcovers, hd⟩

/-- A quote in a piece is in a comment or a string. -/
theorem Tokenizes.sort_of_quote_mem (h : Tokenizes cs ss) (hs : s ∈ ss) (hq : '"' ∈ s.text) :
    s.sort = .ok .comment ∨ s.sort = .ok .string ∨ s.sort = .error .unterminatedString := by
  induction h with
  | nil => cases hs
  | cons _ hp _ ih =>
    rcases List.mem_cons.1 hs with rfl | hs
    · cases hp with
      | lexeme h =>
        rcases kind_of_quote_mem h.1 hq with rfl | rfl
        · exact .inr (.inl rfl)
        · exact .inl rfl
      | unterminated => exact .inr (.inr rfl)
      | unexpected hne => exact absurd (List.mem_singleton.1 hq).symm hne
    · exact ih hs

/-- Where all strings are closed, each quote is in a comment or a string. -/
theorem Tokenizes.not_openQuote (h : Tokenizes cs ss) (hss : StringsClosed ss) : ¬ OpenQuote cs ss pre post := by
  intro hopen
  have htext : [] ++ ss.flatMap Segment.text = pre ++ '"' :: post := h.flatMap_text.trans hopen.text
  obtain ⟨p, hp, hcovers, hq⟩ := exists_covers htext (Nat.zero_le _)
  have hpiece := piece_mem_of_mem_place hp
  rcases h.sort_of_quote_mem hpiece hq with hsort | hsort | hsort
  · exact hopen.outside p hp (.inl hsort) hcovers
  · exact hopen.outside p hp (.inr hsort) hcovers
  · exact hss _ hpiece hsort

theorem mem_place_concat {p : Placed} (hp : p ∈ place [] (us ++ [s])) :
    p.upTo <+: us.flatMap Segment.text ∨ p = ⟨us.flatMap Segment.text, s⟩ := by
  rw [place_append] at hp
  rcases List.mem_append.1 hp with hp | hp
  · exact .inl (prefix_of_mem_place hp)
  · exact .inr (List.mem_singleton.1 hp)

/-- **The quote of the piece that is left open stays open, and no other.** -/
theorem Tokenizes.openQuote_iff (h : Tokenizes cs (us ++ [openString w])) (hw : '"' ∉ w) :
    OpenQuote cs (us ++ [openString w]) pre post ↔ pre = us.flatMap Segment.text ∧ post = w := by
  constructor
  · intro hopen
    exact append_quote_inj (hopen.text.symm.trans h.text_eq) hopen.last hw
  · rintro ⟨rfl, rfl⟩
    refine ⟨h.text_eq, hw, fun p hp hsort hcovers => ?_⟩
    rcases mem_place_concat hp with hbefore | rfl
    · exact absurd hcovers.2 (Nat.not_lt.2 hbefore.length_le)
    · rcases hsort with hsort | hsort <;> cases hsort

/-- **What becomes a token begins before the open string.** -/
theorem Tokenizes.token_before_open (h : Tokenizes cs (us ++ [openString w])) {p : Placed}
    (hp : p ∈ place [] (us ++ [openString w])) {line : Nat} (htoken : (p.token? line).isSome = true) :
    p.before.length < (us.flatMap Segment.text).length := by
  rcases mem_place_concat hp with hbefore | rfl
  · have hpos := List.length_pos_of_ne_nil (h.text_ne_nil (piece_mem_of_mem_place hp))
    have hle := hbefore.length_le
    rw [Placed.upTo, List.length_append] at hle
    omega
  · cases htoken

end
end Segment

/-! ## The scan -/

namespace Scan

open Segment (Tokenizes OpenQuote StringsClosed openString place)

section
variable {cs w : List Char} {ss us : List Segment} (line : Nat)

theorem ofChars_of_tokenizes (h : Tokenizes cs ss) : ofChars line cs = ofSegments line ss := by
  rw [ofChars, h.unique (Segment.tokenizes_split cs)]

theorem unterminated_notMem (h : Tokenizes cs ss) (hss : StringsClosed ss) :
    .unterminatedString ∉ (ofChars line cs).errors.map LexError.cause := by
  rw [ofChars_of_tokenizes line h, mem_errors_ofSegments_iff]
  rintro ⟨s, hs, hsort⟩
  exact hss s hs hsort

theorem filterMap_place_openString (us : List Segment) (w : List Char) :
    (place [] (us ++ [openString w])).filterMap (Placed.token? line) = (place [] us).filterMap (Placed.token? line) := by
  rw [Segment.place_append, List.filterMap_append]
  exact List.append_nil _

/-- **A string that is left open adds its error, and nothing else**, to the scan of the text before it. -/
theorem ofChars_openString (h : Tokenizes cs (us ++ [openString w])) (hus : StringsClosed us) :
    ofChars line cs = ⟨(place [] us).filterMap (Placed.token? line) ++ [Token.eof (line + cs.count '\n')],
      (ofChars line (us.flatMap Segment.text)).errors ++ [⟨.unterminatedString, line + cs.count '\n'⟩]⟩ := by
  have hplace : place [] (us ++ [openString w]) = place [] us ++ [⟨us.flatMap Segment.text, openString w⟩] :=
    Segment.place_append [] us _
  have hcount : (us.flatMap Segment.text ++ '"' :: w).count '\n' = cs.count '\n' := by rw [h.text_eq]
  have herror : [(⟨us.flatMap Segment.text, openString w⟩ : Placed)].filterMap (Placed.error? line) =
      [⟨.unterminatedString, line + (us.flatMap Segment.text ++ '"' :: w).count '\n'⟩] := rfl
  rw [ofChars_of_tokenizes line h, ofChars_of_tokenizes line (h.before_open hus), ofSegments_eq, ofSegments_eq, h.flatMap_text,
    filterMap_place_openString, hplace, List.filterMap_append, herror, hcount]

theorem tokens_before_openString (h : Tokenizes cs (us ++ [openString w])) (hus : StringsClosed us) :
    (ofChars line (us.flatMap Segment.text)).tokens =
      (place [] us).filterMap (Placed.token? line) ++ [Token.eof (line + (us.flatMap Segment.text).count '\n')] := by
  rw [ofChars_of_tokenizes line (h.before_open hus), ofSegments_eq]

end

/-- **A string that is left open is reported once, and last, and takes only the rest of the text.**  A text has one
tokenization.  Its scan reports at most one string that is left open, and does so exactly if there is a quote outside all comments and
closed strings that no quote follows.  That error is the last one, on the line of the closing token.  All other tokens are
of pieces that begin before the quote, and they and the errors before are just those of the text in front of the quote; only
the closing token of that may be on another line. -/
theorem ofText_openQuote (source : String) :
    ∃ ss, Tokenizes source.toList ss ∧ (∀ ss', Tokenizes source.toList ss' → ss' = ss) ∧
      ((ofText source).errors.map LexError.cause).count .unterminatedString ≤ 1 ∧
      (.unterminatedString ∈ (ofText source).errors.map LexError.cause ↔
        ∃ pre post, OpenQuote source.toList ss pre post) ∧
      ∀ pre post, OpenQuote source.toList ss pre post → ∃ line line',
        (ofText source).errors = (ofText (String.ofList pre)).errors ++ [⟨.unterminatedString, line⟩] ∧
        (ofText source).tokens = (place [] ss).filterMap (Placed.token? 1) ++ [Token.eof line] ∧
        (ofText (String.ofList pre)).tokens = (place [] ss).filterMap (Placed.token? 1) ++ [Token.eof line'] ∧
        ∀ p ∈ place [] ss, (p.token? 1).isSome = true → p.before.length < pre.length := by
  obtain ⟨ss, ht⟩ : ∃ ss, Tokenizes source.toList ss := ⟨_, Segment.tokenizes_split _⟩
  refine ⟨ss, ht, fun ss' h => h.unique ht, ?_⟩
  rcases ht.closed_or_open with hclosed | ⟨us, w, rfl, hw, hus⟩
  · have hnone : .unterminatedString ∉ (ofText source).errors.map LexError.cause := unterminated_notMem 1 ht hclosed
    refine ⟨?_, iff_of_false hnone ?_, fun pre post hopen => absurd hopen (ht.not_openQuote hclosed)⟩
    · rw [List.count_eq_zero.2 hnone]
      exact Nat.zero_le 1
    · rintro ⟨pre, post, hopen⟩
      exact ht.not_openQuote hclosed hopen
  · have hscan : ofText source = _ := ofChars_openString 1 ht hus
    -- the pieces before are all closed, so the error of the last one is the only one of its kind
    have hcauses : (ofText source).errors.map LexError.cause =
        (ofChars 1 (us.flatMap Segment.text)).errors.map LexError.cause ++ [.unterminatedString] := by
      rw [hscan, List.map_append]
      rfl
    refine ⟨?_, iff_of_true ?_ ⟨_, _, (ht.openQuote_iff hw).2 ⟨rfl, rfl⟩⟩, fun pre post hopen => ?_⟩
    · rw [hcauses, List.count_append, List.count_eq_zero.2 (unterminated_notMem 1 (ht.before_open hus) hus)]
      exact Nat.le_refl 1
    · rw [hcauses]
      exact List.mem_append_right _ (List.mem_singleton_self _)
    · obtain ⟨rfl, rfl⟩ := (ht.openQuote_iff hw).1 hopen
      have htext : ofText (String.ofList (us.flatMap Segment.text)) = ofChars 1 (us.flatMap Segment.text) :=
        congrArg (ofChars 1) String.toList_ofList
      rw [htext, tokens_before_openString 1 ht hus, hscan, filterMap_place_openString]
      exact ⟨_, _, rfl, rfl, rfl, fun p hp => ht.token_before_open hp⟩

/-- The quote in the comment begins no string; the one on the next line does, and takes the stray character behind it. -/
theorem ofText_quoteBehindComment : ∃ ss, Tokenizes "@ // \"\n\"#".toList ss ∧
    OpenQuote "@ // \"\n\"#".toList ss "@ // \"\n".toList ['#'] ∧
    ∃ line, (ofText "@ // \"\n\"#").errors = (ofText "@ // \"\n").errors ++ [⟨.unterminatedString, line⟩] := by
  obtain ⟨ss, ht, -, -, hreported, hopen⟩ := ofText_openQuote "@ // \"\n\"#"
  have herrors : (ofText "@ // \"\n\"#").errors = [⟨.unexpectedCharacter, 1⟩, ⟨.unterminatedString, 2⟩] := by decide +kernel
  obtain ⟨pre, post, hquote⟩ := hreported.1 (by rw [herrors]; decide)
  have htext : pre ++ '"' :: post = "@ // \"\n".toList ++ '"' :: ['#'] := hquote.text.symm.trans (by decide)
  obtain ⟨rfl, rfl⟩ := Segment.append_quote_inj htext hquote.last (by decide)
  obtain ⟨line, -, hlast, -⟩ := hopen _ _ hquote
  exact ⟨ss, ht, hquote, line, hlast⟩

end Scan
end LoxExpr
