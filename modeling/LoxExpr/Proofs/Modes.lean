import LoxExpr.Proofs.OpenStrings
/-!
# Modes: the open quote found in one pass

Which quotes begin a string can be told without cutting the text into pieces.  It is enough to go through it once, a character
at a time, and to know whether that is in a string, in a comment, or in neither, and there whether a slash comes just before.
Behind a piece that is no open string it goes on as at the beginning (`FirstPiece.reach_iff`).  So a text leaves a string open
exactly if it ends in one (`Tokenizes.unterminated_iff_reach`), and the quote that stays open is the last one, if it is reached
in neither a string nor a comment (`Tokenizes.openQuote_iff_reach`).
-/
namespace LoxExpr

/-- **What a character stands in.**  Behind a slash it is in neither a string nor a comment yet. -/
inductive Mode where
  | plain | slash | string | comment
deriving DecidableEq

namespace Mode

def step : Mode → Char → Mode
  | plain, c => if c = '"' then string else if c = '/' then slash else plain
  | slash, c => if c = '"' then string else if c = '/' then comment else plain
  | string, c => if c = '"' then plain else string
  | comment, c => if c = '\n' then plain else comment

/-- The mode behind a text. -/
def reach (m : Mode) (cs : List Char) : Mode := cs.foldl step m

/-- Neither in a string nor in a comment. -/
def isOpen : Mode → Bool
  | plain | slash => true
  | string | comment => false

section
variable {m : Mode} {c : Char} {cs w rest : List Char}

theorem reach_append (m : Mode) (cs ds : List Char) : m.reach (cs ++ ds) = (m.reach cs).reach ds := List.foldl_append

theorem reach_string (h : '"' ∉ w) : string.reach w = string := by
  induction w with
  | nil => rfl
  | cons c w ih =>
    obtain ⟨hc, hw⟩ := not_or.1 (List.mem_cons.not.1 h)
    rw [reach, List.foldl_cons, step, if_neg (Ne.symm hc)]
    exact ih hw

theorem reach_comment (h : '\n' ∉ w) : comment.reach w = comment := by
  induction w with
  | nil => rfl
  | cons c w ih =>
    obtain ⟨hc, hw⟩ := not_or.1 (List.mem_cons.not.1 h)
    rw [reach, List.foldl_cons, step, if_neg (Ne.symm hc)]
    exact ih hw

theorem reach_plain (h : ∀ c ∈ w, c ≠ '"' ∧ c ≠ '/') : plain.reach w = plain := by
  induction w with
  | nil => rfl
  | cons c w ih =>
    obtain ⟨⟨hquote, hslash⟩, hw⟩ := List.forall_mem_cons.1 h
    rw [reach, List.foldl_cons, step, if_neg hquote, if_neg hslash]
    exact ih hw

/-- A text without a quote leads into no string. -/
theorem reach_ne_string (h : '"' ∉ w) (hm : m ≠ string) : m.reach w ≠ string := by
  induction w generalizing m with
  | nil => exact hm
  | cons c w ih =>
    obtain ⟨hc, hw⟩ := not_or.1 (List.mem_cons.not.1 h)
    refine ih hw ?_
    cases m with
    | string => exact absurd rfl hm
    | plain => rw [step, if_neg (Ne.symm hc)]; split <;> nofun
    | slash => rw [step, if_neg (Ne.symm hc)]; split <;> nofun
    | comment => rw [step]; split <;> nofun

/-- **The last quote leads into a string exactly if it is in neither a string nor a comment.** -/
theorem reach_quote_iff (h : '"' ∉ w) : m.reach ('"' :: w) = string ↔ m.isOpen = true := by
  show (m.step '"').reach w = string ↔ m.isOpen = true
  cases m with
  | plain => exact iff_of_true (reach_string h) rfl
  | slash => exact iff_of_true (reach_string h) rfl
  | string => exact iff_of_false (reach_ne_string h nofun) nofun
  | comment => exact iff_of_false (reach_ne_string h nofun) nofun

/-- Behind a slash that no other follows, and in front of the line end of a comment, it goes on as at the beginning. -/
theorem reach_slash (h : rest.head? ≠ some '/') : slash.reach rest = string ↔ plain.reach rest = string := by
  cases rest with
  | nil => exact iff_of_false nofun nofun
  | cons c rest =>
    have hc : c ≠ '/' := fun hc => h (congrArg some hc)
    have hstep : slash.step c = plain.step c := by rw [step, step, if_neg hc, if_neg hc]
    rw [reach, reach, List.foldl_cons, List.foldl_cons, hstep]

theorem reach_lineEnd (h : ∀ d, rest.head? = some d → d = '\n') : comment.reach rest = string ↔ plain.reach rest = string := by
  cases rest with
  | nil => exact iff_of_false nofun nofun
  | cons c rest =>
    obtain rfl := h c rfl
    rfl

end
end Mode

namespace Segment

open Mode (plain)

section
variable {kind : TokenKind} {cs rest w pre post : List Char} {s : Segment} {ss : List Segment}

theorem kind_of_slash_mem (h : w ∈ lexemes kind) (hs : '/' ∈ w) : kind = .string ∨ kind = .comment ∨ kind = .symbol .slash := by
  by_cases hk : kind = .symbol .slash
  · exact .inr (.inr hk)
  · have hsymbol : ∀ s, kind = .symbol s → '/' ∉ s.spelling.toList := by
      rintro s rfl
      cases s <;> first | decide | exact absurd rfl hk
    rcases kind_of_mem_foreign hsymbol (by decide) (by decide) (by decide) h hs with rfl | rfl | rfl
    · exact .inl rfl
    · exact .inr (.inl rfl)
    · exact absurd (List.mem_singleton.1 ((show w = ['\n'] from h) ▸ hs)) (by decide)

/-- A comment goes on to the end of its line. -/
theorem Longest.lineEnd_of_comment (h : Longest .comment w (w ++ rest)) : ∀ d, rest.head? = some d → d = '\n' := by
  obtain ⟨hw, -, hmax, -⟩ := h
  obtain ⟨x, hx, rfl⟩ := mem_comment.1 hw
  intro d hd
  by_contra hne
  obtain ⟨rest, rfl⟩ := List.head?_eq_some_iff.1 hd
  have hlonger : '/' :: '/' :: (x ++ [d]) ∈ lexemes .comment :=
    mem_comment.2 ⟨x ++ [d], by simpa [hx] using Ne.symm hne, rfl⟩
  have hle := hmax .comment _ hlonger ⟨rest, by simp⟩
  simp at hle

/-- A slash that is a symbol has no other behind it. -/
theorem Longest.head?_of_slash (h : Longest (.symbol .slash) w (w ++ rest)) : rest.head? ≠ some '/' := by
  obtain ⟨hw, -, hmax, -⟩ := h
  obtain rfl : w = ['/'] := hw
  intro hd
  obtain ⟨rest, rfl⟩ := List.head?_eq_some_iff.1 hd
  have hle := hmax .comment ['/', '/'] (mem_comment.2 ⟨[], by simp, rfl⟩) ⟨rest, rfl⟩
  exact absurd hle (by decide)

/-- **Behind a piece other than an open string it goes on as at the beginning.** -/
theorem FirstPiece.reach_iff (h : FirstPiece (s.text ++ rest) s) (hs : s.sort ≠ .error .unterminatedString) :
    plain.reach (s.text ++ rest) = .string ↔ plain.reach rest = .string := by
  rw [Mode.reach_append]
  generalize htext : s.text ++ rest = cs at h
  cases h with
  | @lexeme kind w _ h =>
    have h : Longest kind w (w ++ rest) := htext ▸ h
    show (plain.reach w).reach rest = .string ↔ _
    by_cases hstring : kind = .string
    · subst hstring
      obtain ⟨x, hx, rfl⟩ := mem_string.1 h.1
      have hclosed : plain.reach ('"' :: (x ++ ['"'])) = .plain := by
        show Mode.string.reach (x ++ ['"']) = .plain
        rw [Mode.reach_append, Mode.reach_string hx]
        rfl
      rw [hclosed]
    by_cases hcomment : kind = .comment
    · subst hcomment
      obtain ⟨x, hx, rfl⟩ := mem_comment.1 h.1
      have hreach : plain.reach ('/' :: '/' :: x) = .comment := Mode.reach_comment hx
      rw [hreach]
      exact Mode.reach_lineEnd h.lineEnd_of_comment
    by_cases hslash : kind = .symbol .slash
    · subst hslash
      have hreach : plain.reach w = .slash := by rw [show w = ['/'] from h.1]; rfl
      rw [hreach]
      exact Mode.reach_slash h.head?_of_slash
    · have hplain : ∀ c ∈ w, c ≠ '"' ∧ c ≠ '/' := fun c hc => by
        refine ⟨?_, ?_⟩ <;> rintro rfl
        · exact (kind_of_quote_mem h.1 hc).elim hstring hcomment
        · exact (kind_of_slash_mem h.1 hc).elim hstring fun hk => hk.elim hcomment hslash
      rw [Mode.reach_plain hplain]
  | unterminated => exact absurd rfl hs
  | @unexpected c cs' hne hno =>
    have hslash : c ≠ '/' := by
      rintro rfl
      exact hno (.symbol .slash) ['/'] rfl (List.prefix_append ['/'] cs')
    have hreach : plain.reach [c] = .plain := Mode.reach_plain (by simpa using ⟨hne, hslash⟩)
    show (plain.reach [c]).reach rest = .string ↔ _
    rw [hreach]

/-- **A text leaves a string open exactly if it ends in one.** -/
theorem Tokenizes.unterminated_iff_reach (h : Tokenizes cs ss) :
    (∃ s ∈ ss, s.sort = .error .unterminatedString) ↔ plain.reach cs = .string := by
  induction h with
  | nil => exact iff_of_false (by simp) nofun
  | @cons cs s rest ss hcs hp ht ih =>
    subst hcs
    by_cases hs : s.sort = .error .unterminatedString
    · refine iff_of_true ⟨s, List.mem_cons_self, hs⟩ ?_
      generalize htext : s.text ++ rest = cs at hp
      cases hp with
      | lexeme => cases hs
      | unterminated hq => exact Mode.reach_string hq
      | unexpected => cases hs
    · rw [hp.reach_iff hs, ← ih, List.exists_mem_cons_iff]
      exact or_iff_right hs

/-- **The quote that stays open is the last one, in neither a string nor a comment.** -/
theorem Tokenizes.openQuote_iff_reach (h : Tokenizes cs ss) :
    OpenQuote cs ss pre post ↔ cs = pre ++ '"' :: post ∧ '"' ∉ post ∧ (plain.reach pre).isOpen = true := by
  have hreach : cs = pre ++ '"' :: post → '"' ∉ post →
      ((∃ s ∈ ss, s.sort = .error .unterminatedString) ↔ (plain.reach pre).isOpen = true) := by
    intro htext hlast
    rw [h.unterminated_iff_reach, htext, Mode.reach_append, Mode.reach_quote_iff hlast]
  rcases h.closed_or_open with hclosed | ⟨us, w, rfl, hw, -⟩
  · refine iff_of_false (h.not_openQuote hclosed) ?_
    rintro ⟨htext, hlast, hopen⟩
    obtain ⟨s, hs, hsort⟩ := (hreach htext hlast).2 hopen
    exact hclosed s hs hsort
  · constructor
    · intro hopen
      have hmem : openString w ∈ us ++ [openString w] := List.mem_append_right us (List.mem_singleton_self _)
      exact ⟨hopen.text, hopen.last, (hreach hopen.text hopen.last).1 ⟨_, hmem, rfl⟩⟩
    · rintro ⟨htext, hlast, -⟩
      exact (h.openQuote_iff hw).2 (append_quote_inj (htext.symm.trans h.text_eq) hlast hw)

end
end Segment

/-- **A scan reports a string that is left open exactly if the text ends in one.** -/
theorem Scan.unterminated_iff_reach (source : String) :
    .unterminatedString ∈ (ofText source).errors.map LexError.cause ↔ Mode.plain.reach source.toList = .string :=
  mem_errors_ofSegments_iff.trans (Segment.tokenizes_split source.toList).unterminated_iff_reach

/-- A quote in a comment begins no string, and a comment in a string does not take its quote. -/
example : Mode.plain.reach "1 // \"\n\"//\" / \"".toList = .string := by decide

end LoxExpr
