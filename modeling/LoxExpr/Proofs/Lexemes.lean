import LoxExpr.Proofs.Pieces
import Mathlib.Computability.Language
/-!
# Lexemes: the lexical rules, and the longest of them in front of a text

Each rule is written down once more, as a regular language (`lexemes`), without a word on how a text is cut.  The first
character of a lexeme already says which rules it can be of (`opening`), so only rules that share it compete: words with
keywords, and symbols with one another and with comments.

`Longest` is what the longest lexeme in front of a text is.  There is one lemma for each rule, which says that what the rule
can take is the longest of all that any rule can take.
-/
namespace LoxExpr
namespace Segment

open scoped Computability

/-! ## The rules -/

def oneOf (p : Char → Prop) : Language Char := {w | ∃ c, w = [c] ∧ p c}

def IsDecimal (c : Char) : Prop := '0' ≤ c ∧ c ≤ '9'

def IsLetter (c : Char) : Prop := 'a' ≤ c ∧ c ≤ 'z' ∨ 'A' ≤ c ∧ c ≤ 'Z' ∨ c = '_'

def digits : Language Char := oneOf IsDecimal * (oneOf IsDecimal)∗

def blank : Language Char := oneOf (· ∈ [' ', '\t', '\r'])

/-- **The lexemes of each kind.**  The closing token has none. -/
def lexemes : TokenKind → Language Char
  | .symbol s => {s.spelling.toList}
  | .keyword k => {k.spelling.toList}
  | .identifier => oneOf IsLetter * (oneOf fun c => IsLetter c ∨ IsDecimal c)∗
  | .string => {['"']} * ((oneOf (· ≠ '"'))∗ * {['"']})
  | .number => digits * (1 + {['.']} * digits)
  | .comment => {['/', '/']} * (oneOf (· ≠ '\n'))∗
  | .newline => {['\n']}
  | .blanks => blank * blank∗
  | .eof => 0

theorem isDecimal_iff {c : Char} : IsDecimal c ↔ c.isDigit = true := by
  simp [IsDecimal, Char.isDigit, Char.le_def]

theorem isLetter_iff {c : Char} : IsLetter c ↔ isWordStart c = true := by
  have halpha : c.isAlpha = true ↔ 'a' ≤ c ∧ c ≤ 'z' ∨ 'A' ≤ c ∧ c ≤ 'Z' := by
    have h : c.isAlpha = (decide (65 ≤ c.val ∧ c.val ≤ 90) || decide (97 ≤ c.val) && decide (c.val ≤ 122)) := rfl
    simp only [h, Char.le_def, Bool.or_eq_true, Bool.and_eq_true, decide_eq_true_eq]
    exact or_comm
  simp only [IsLetter, isWordStart, Bool.or_eq_true, halpha, decide_eq_true_eq, or_assoc]

theorem mem_kstar_oneOf {p : Char → Prop} {w : List Char} : w ∈ (oneOf p)∗ ↔ ∀ c ∈ w, p c := by
  rw [Language.mem_kstar]
  constructor
  · rintro ⟨L, rfl, hL⟩ c hc
    obtain ⟨l, hl, hcl⟩ := List.mem_flatten.1 hc
    obtain ⟨d, rfl, hd⟩ := hL l hl
    rw [List.mem_singleton.1 hcl]; exact hd
  · intro h
    refine ⟨w.map ([·]), ?_, ?_⟩
    · rw [← List.flatMap_def, List.flatMap_singleton']
    intro y hy
    obtain ⟨c, hc, rfl⟩ := List.mem_map.1 hy
    exact ⟨c, rfl, h c hc⟩

theorem mem_oneOf_mul {p : Char → Prop} {l : Language Char} {w : List Char} :
    w ∈ oneOf p * l ↔ ∃ c cs, w = c :: cs ∧ p c ∧ cs ∈ l := by
  rw [Language.mem_mul]
  constructor
  · rintro ⟨_, ⟨c, rfl, hc⟩, cs, hcs, rfl⟩; exact ⟨c, cs, rfl, hc, hcs⟩
  · rintro ⟨c, cs, rfl, hc, hcs⟩; exact ⟨[c], ⟨c, rfl, hc⟩, cs, hcs, rfl⟩

theorem mem_singleton_mul {v w : List Char} {l : Language Char} : w ∈ ({v} : Language Char) * l ↔ ∃ cs ∈ l, v ++ cs = w := by
  rw [Language.mem_mul]
  constructor
  · rintro ⟨_, rfl, cs, hcs, rfl⟩; exact ⟨cs, hcs, rfl⟩
  · rintro ⟨cs, hcs, rfl⟩; exact ⟨v, rfl, cs, hcs, rfl⟩

theorem mem_digits {w : List Char} : w ∈ digits ↔ w ≠ [] ∧ ∀ c ∈ w, c.isDigit = true := by
  simp only [digits, mem_oneOf_mul, mem_kstar_oneOf, isDecimal_iff]
  cases w with
  | nil => simp
  | cons c cs => simp

theorem mem_identifier {w : List Char} :
    w ∈ lexemes .identifier ↔ ∃ c cs, w = c :: cs ∧ isWordStart c = true ∧ ∀ d ∈ cs, isWordPart d = true := by
  have hpart : ∀ d, isWordStart d = true ∨ d.isDigit = true ↔ isWordPart d = true := by
    intro d
    simp only [isWordStart, isWordPart, Char.isAlphanum, Bool.or_eq_true]
    tauto
  simp only [lexemes, mem_oneOf_mul, mem_kstar_oneOf, isLetter_iff, isDecimal_iff, hpart]

theorem mem_string {w : List Char} : w ∈ lexemes .string ↔ ∃ cs, '"' ∉ cs ∧ w = '"' :: (cs ++ ['"']) := by
  have hquote : ∀ cs : List Char, cs ∈ (oneOf (· ≠ '"'))∗ ↔ '"' ∉ cs := by
    intro cs
    rw [mem_kstar_oneOf]
    exact ⟨fun h hc => h _ hc rfl, fun h c hc he => h (he ▸ hc)⟩
  simp only [lexemes, mem_singleton_mul]
  simp only [Language.mem_mul, hquote]
  constructor
  · rintro ⟨_, ⟨cs, hcs, _, rfl, rfl⟩, rfl⟩; exact ⟨cs, hcs, rfl⟩
  · rintro ⟨cs, hcs, rfl⟩; exact ⟨_, ⟨cs, hcs, _, rfl, rfl⟩, rfl⟩

theorem mem_number {w : List Char} : w ∈ lexemes .number ↔
    ∃ ds, (ds ≠ [] ∧ ∀ c ∈ ds, c.isDigit = true) ∧
      (w = ds ∨ ∃ es, (es ≠ [] ∧ ∀ c ∈ es, c.isDigit = true) ∧ w = ds ++ '.' :: es) := by
  simp only [lexemes, Language.mem_mul, ← mem_digits]
  refine exists_congr fun ds => and_congr_right fun _ => ?_
  constructor
  · rintro ⟨x, hx | hx, rfl⟩
    · rw [(Language.mem_one x).1 hx, List.append_nil]; exact .inl rfl
    · obtain ⟨es, hes, rfl⟩ := mem_singleton_mul.1 hx
      exact .inr ⟨es, hes, rfl⟩
  · rintro (rfl | ⟨es, hes, rfl⟩)
    · exact ⟨[], .inl rfl, List.append_nil _⟩
    · exact ⟨_, .inr (mem_singleton_mul.2 ⟨es, hes, rfl⟩), rfl⟩

/-- The lexemes of numbers are the numerals. -/
theorem mem_number_iff {w : List Char} : w ∈ lexemes .number ↔ ∃ n : Numeral, n.text = w := by
  rw [mem_number]
  constructor
  · rintro ⟨ds, ⟨hne, hds⟩, rfl | ⟨es, ⟨hes, hdigits⟩, rfl⟩⟩
    · exact ⟨⟨w, [], hne, hds, fun _ h => absurd h List.not_mem_nil⟩, List.append_nil w⟩
    · exact ⟨⟨ds, es, hne, hds, hdigits⟩, congrArg (ds ++ ·) (if_neg hes)⟩
  · rintro ⟨n, rfl⟩
    refine ⟨n.whole, ⟨n.whole_ne_nil, n.isDigit_whole⟩, ?_⟩
    rw [Numeral.text, Numeral.fraction]
    split
    · exact .inl (List.append_nil _)
    · next hne => exact .inr ⟨n.places, ⟨hne, n.isDigit_places⟩, rfl⟩

theorem mem_comment {w : List Char} : w ∈ lexemes .comment ↔ ∃ cs, '\n' ∉ cs ∧ w = '/' :: '/' :: cs := by
  have hline : ∀ cs : List Char, cs ∈ (oneOf (· ≠ '\n'))∗ ↔ '\n' ∉ cs := by
    intro cs
    rw [mem_kstar_oneOf]
    exact ⟨fun h hc => h _ hc rfl, fun h c hc he => h (he ▸ hc)⟩
  simp only [lexemes, mem_singleton_mul, hline]
  exact exists_congr fun cs => and_congr_right fun _ => eq_comm

theorem mem_blanks {w : List Char} : w ∈ lexemes .blanks ↔ w ≠ [] ∧ ∀ c ∈ w, isBlank c = true := by
  have hblank : ∀ c : Char, c ∈ [' ', '\t', '\r'] ↔ isBlank c = true := by
    intro c
    simp [isBlank, or_assoc]
  simp only [lexemes, blank, mem_oneOf_mul, mem_kstar_oneOf, hblank]
  cases w with
  | nil => simp
  | cons c cs => simp

/-! ## The first character -/

/-- What the first character of a piece says about it. -/
inductive Opening where
  | quote | lineEnd | blank | digit | letter | mark

def opening (c : Char) : Opening :=
  if c = '"' then .quote else if c = '\n' then .lineEnd else if isBlank c then .blank
  else if c.isDigit then .digit else if isWordStart c then .letter else .mark

def openingOf : TokenKind → Opening
  | .string => .quote
  | .newline => .lineEnd
  | .blanks => .blank
  | .number => .digit
  | .keyword _ | .identifier => .letter
  | .symbol _ | .comment | .eof => .mark

theorem opening_mark {c : Char} (h : c ≠ '"' ∧ c ≠ '\n' ∧ isBlank c = false ∧ c.isDigit = false ∧ isWordStart c = false) :
    opening c = .mark := by
  simp [opening, h]

theorem opening_digit {c : Char} (h : c.isDigit = true) : opening c = .digit := by
  have hquote : c ≠ '"' := ne_of_class h (by decide)
  have hline : c ≠ '\n' := ne_of_class h (by decide)
  have hblank : isBlank c = false := isBlank_eq_false_of_class h (by decide) (by decide) (by decide)
  simp [opening, h, hquote, hline, hblank]

theorem opening_letter {c : Char} (h : isWordStart c = true) : opening c = .letter := by
  have hquote : c ≠ '"' := ne_of_class h (by decide)
  have hline : c ≠ '\n' := ne_of_class h (by decide)
  have hblank : isBlank c = false := isBlank_eq_false_of_class h (by decide) (by decide) (by decide)
  simp [opening, h, hquote, hline, hblank, isDigit_eq_false_of_isWordStart h]

theorem opening_blank {c : Char} (h : isBlank c = true) : opening c = .blank := by
  have hquote : c ≠ '"' := ne_of_class h (by decide)
  have hline : c ≠ '\n' := ne_of_class h (by decide)
  simp [opening, h, hquote, hline]

theorem opening_of_mem {kind : TokenKind} {w : List Char} (h : w ∈ lexemes kind) :
    ∃ c cs, w = c :: cs ∧ opening c = openingOf kind := by
  cases kind with
  | symbol s =>
    obtain ⟨c, cs, hs, hquote, hline, hblank, hdigit, hword, -⟩ := symbol_spelling_eq s
    exact ⟨c, cs, h.trans hs, opening_mark ⟨hquote, hline, hblank, hdigit, hword⟩⟩
  | keyword k =>
    obtain ⟨c, cs, hk, hc, -⟩ := keyword_spelling_eq k
    exact ⟨c, cs, h.trans hk, opening_letter hc⟩
  | identifier =>
    obtain ⟨c, cs, rfl, hc, -⟩ := mem_identifier.1 h
    exact ⟨c, cs, rfl, opening_letter hc⟩
  | string =>
    obtain ⟨cs, -, rfl⟩ := mem_string.1 h
    exact ⟨_, _, rfl, rfl⟩
  | number =>
    obtain ⟨ds, ⟨hne, hds⟩, hw⟩ := mem_number.1 h
    obtain ⟨d, ds', rfl⟩ := List.exists_cons_of_ne_nil hne
    have hd : opening d = .digit := opening_digit (hds d List.mem_cons_self)
    rcases hw with rfl | ⟨es, -, rfl⟩
    · exact ⟨d, ds', rfl, hd⟩
    · exact ⟨d, _, List.cons_append, hd⟩
  | comment =>
    obtain ⟨cs, -, rfl⟩ := mem_comment.1 h
    exact ⟨_, _, rfl, rfl⟩
  | newline => exact ⟨_, _, h, rfl⟩
  | blanks =>
    obtain ⟨hne, hw⟩ := mem_blanks.1 h
    obtain ⟨c, cs, rfl⟩ := List.exists_cons_of_ne_nil hne
    exact ⟨c, cs, rfl, opening_blank (hw c List.mem_cons_self)⟩
  | eof => exact absurd h (Language.notMem_zero w)

theorem cut_eq (c : Char) (cs : List Char) : cut c cs =
    match opening c with
    | .quote => cutString cs
    | .lineEnd => (.ok .newline, 0)
    | .blank => (.ok .blanks, run isBlank cs)
    | .digit => (.ok .number, cutNumber cs)
    | .letter => (.ok (wordKind (c :: cs.take (run isWordPart cs))), run isWordPart cs)
    | .mark =>
      if c = '/' ∧ cs.head? = some '/' then (.ok .comment, run (· ≠ '\n') cs)
      else match symbolAt? c cs with
        | some s => (.ok (.symbol s), s.spelling.length - 1)
        | none => (.error .unexpectedCharacter, 0) := by
  unfold cut opening
  split_ifs <;> rfl

theorem opening_spec (c : Char) :
    match opening c with
    | .quote => c = '"'
    | .lineEnd => c = '\n'
    | .blank => isBlank c = true
    | .digit => c.isDigit = true
    | .letter => isWordStart c = true
    | .mark => c ≠ '"' := by
  unfold opening
  split_ifs <;> assumption

theorem openingOf_of_mem {kind : TokenKind} {c : Char} {x : List Char} (h : c :: x ∈ lexemes kind) :
    openingOf kind = opening c := by
  obtain ⟨c', cs, hw, ho⟩ := opening_of_mem h
  cases hw
  exact ho.symm

/-- The kinds whose lexemes open in this way. -/
def Opening.Admits : Opening → TokenKind → Prop
  | quote, kind => kind = .string
  | lineEnd, kind => kind = .newline
  | blank, kind => kind = .blanks
  | digit, kind => kind = .number
  | letter, kind => (∃ k, kind = .keyword k) ∨ kind = .identifier
  | mark, kind => (∃ s, kind = .symbol s) ∨ kind = .comment ∨ kind = .eof

theorem admits_of_openingOf {kind : TokenKind} {o : Opening} (h : openingOf kind = o) : o.Admits kind := by
  subst h
  cases kind <;> simp [openingOf, Opening.Admits]

/-- A character that is in no symbol, word or number is in a string or in layout. -/
theorem kind_of_mem_outside {kind : TokenKind} {w : List Char} {d : Char}
    (hsymbol : ∀ s, kind = .symbol s → d ∉ s.spelling.toList)
    (hword : isWordPart d = false) (hpoint : d ≠ '.') (h : w ∈ lexemes kind) (hd : d ∈ w) :
    kind = .string ∨ kind.isLayout = true := by
  have hstart : isWordStart d = false := by
    simp only [isWordStart, isWordPart, Char.isAlphanum, Bool.or_eq_false_iff] at hword ⊢
    exact ⟨hword.1.1, hword.2⟩
  have hdigit : d.isDigit = false := by
    simp only [isWordPart, Char.isAlphanum, Bool.or_eq_false_iff] at hword
    exact hword.1.2
  cases kind with
  | symbol s => exact absurd ((show w = s.spelling.toList from h) ▸ hd) (hsymbol s rfl)
  | keyword k =>
    obtain ⟨c, cs, hk, hc, hcs⟩ := keyword_spelling_eq k
    obtain rfl : w = c :: cs := (show w = k.spelling.toList from h).trans hk
    rcases List.mem_cons.1 hd with rfl | hd
    · exact absurd rfl (ne_of_class hc hstart)
    · exact absurd rfl (ne_of_class (List.all_eq_true.1 hcs d hd) hword)
  | identifier =>
    obtain ⟨c, cs, rfl, hc, hcs⟩ := mem_identifier.1 h
    rcases List.mem_cons.1 hd with rfl | hd
    · exact absurd rfl (ne_of_class hc hstart)
    · exact absurd rfl (ne_of_class (hcs d hd) hword)
  | string => exact .inl rfl
  | number =>
    obtain ⟨ds, ⟨-, hds⟩, rfl | ⟨es, ⟨-, hes⟩, rfl⟩⟩ := mem_number.1 h
    · exact absurd rfl (ne_of_class (hds d hd) hdigit)
    · rcases List.mem_append.1 hd with hd | hd
      · exact absurd rfl (ne_of_class (hds d hd) hdigit)
      · exact absurd rfl (ne_of_class (hes d ((List.mem_cons.1 hd).resolve_left hpoint)) hdigit)
  | comment | newline | blanks => exact .inr rfl
  | eof => exact absurd h (Language.notMem_zero w)

/-- If it is no blank either, it is in a string or a comment, or it is a line end. -/
theorem kind_of_mem_foreign {kind : TokenKind} {w : List Char} {d : Char}
    (hsymbol : ∀ s, kind = .symbol s → d ∉ s.spelling.toList)
    (hword : isWordPart d = false) (hpoint : d ≠ '.') (hblank : isBlank d = false) (h : w ∈ lexemes kind) (hd : d ∈ w) :
    kind = .string ∨ kind = .comment ∨ kind = .newline := by
  rcases kind_of_mem_outside hsymbol hword hpoint h hd with rfl | hlayout
  · exact .inl rfl
  · cases kind with
    | comment => exact .inr (.inl rfl)
    | newline => exact .inr (.inr rfl)
    | blanks => exact absurd rfl (ne_of_class ((mem_blanks.1 h).2 d hd) hblank)
    | _ => cases hlayout

/-- A line end is a lexeme of its own, and only a string goes over it. -/
theorem kind_of_newline_mem {kind : TokenKind} {w : List Char} (h : w ∈ lexemes kind) (hn : '\n' ∈ w) :
    kind = .newline ∨ kind = .string := by
  have hsymbol : ∀ s : Symbol, '\n' ∉ s.spelling.toList := by intro s; cases s <;> decide
  rcases kind_of_mem_foreign (fun s _ => hsymbol s) (by decide) (by decide) (by decide) h hn with rfl | rfl | rfl
  · exact .inr rfl
  · obtain ⟨cs, hcs, rfl⟩ := mem_comment.1 h
    simp [hcs] at hn
  · exact .inl rfl

/-- A quote is in a string or a comment. -/
theorem kind_of_quote_mem {kind : TokenKind} {w : List Char} (h : w ∈ lexemes kind) (hq : '"' ∈ w) :
    kind = .string ∨ kind = .comment := by
  have hsymbol : ∀ s : Symbol, '"' ∉ s.spelling.toList := by intro s; cases s <;> decide
  rcases kind_of_mem_foreign (fun s _ => hsymbol s) (by decide) (by decide) (by decide) h hq with rfl | rfl | rfl
  · exact .inl rfl
  · exact .inr rfl
  · exact absurd (List.mem_singleton.1 ((show w = ['\n'] from h) ▸ hq)) (by decide)

/-! ## Lexemes that go on -/

/-- What is in front of a text is in front of a part of it, or it goes on with the character behind that part. -/
theorem prefix_or_goes_on {w x ds : List Char} {d : Char} (h : x <+: w ++ d :: ds) : x <+: w ∨ w ++ [d] <+: x := by
  have hd : w ++ [d] <+: w ++ d :: ds := ⟨ds, by simp⟩
  rcases List.prefix_or_prefix_of_prefix h hd with h | h
  · rcases List.prefix_concat_iff.1 h with rfl | h
    · exact .inr (List.prefix_refl _)
    · exact .inl h
  · exact .inr h

/-- A string ends with the first quote behind the one that it begins with. -/
theorem quote_notMem_of_prefix {v cs : List Char} {d : Char} (hv : v ∈ lexemes .string) (h : '"' :: (cs ++ [d]) <+: v) :
    '"' ∉ cs := by
  obtain ⟨y, hy, rfl⟩ := mem_string.1 hv
  obtain ⟨-, hcs⟩ := List.cons_prefix_cons.1 h
  rcases List.prefix_concat_iff.1 hcs with hcs | hcs
  · obtain ⟨rfl, -⟩ := List.append_inj' hcs rfl
    exact hy
  · exact fun hq => hy (hcs.subset (List.mem_append_left _ hq))

/-! ## The longest lexeme in front -/

/-- **The longest lexeme in front of `cs`**, of whatever rule; a word that is spelled like a keyword is that keyword. -/
def Longest (kind : TokenKind) (w cs : List Char) : Prop :=
  w ∈ lexemes kind ∧ w <+: cs ∧ (∀ kind' w', w' ∈ lexemes kind' → w' <+: cs → w'.length ≤ w.length) ∧
    (kind = .identifier → ∀ k : Keyword, w ≠ k.spelling.toList)

section
variable {kind : TokenKind} {c : Char} {w rest : List Char}

theorem longest_of (hw : c :: w ∈ lexemes kind)
    (hmax : ∀ kind' x, openingOf kind' = opening c → c :: x ∈ lexemes kind' → x <+: w ++ rest → x.length ≤ w.length)
    (hkey : kind = .identifier → ∀ k : Keyword, c :: w ≠ k.spelling.toList) : Longest kind (c :: w) (c :: (w ++ rest)) := by
  refine ⟨hw, List.prefix_append (c :: w) rest, fun kind' w' hw' hp => ?_, hkey⟩
  obtain ⟨c', x, rfl, ho⟩ := opening_of_mem hw'
  obtain ⟨rfl, hx⟩ := List.cons_prefix_cons.1 hp
  exact Nat.succ_le_succ (hmax kind' x ho.symm hw' hx)

/-- A text begins with a run of characters of a class, behind which the class ends. -/
theorem exists_run (p : Char → Bool) (cs : List Char) : ∃ w rest, cs = w ++ rest ∧ (∀ d ∈ w, p d = true) ∧
    (∀ d, rest.head? = some d → p d = false) ∧ run p cs = w.length := by
  refine ⟨cs.takeWhile p, cs.dropWhile p, List.takeWhile_append_dropWhile.symm, fun d => List.mem_takeWhile_imp, ?_, rfl⟩
  intro d hd
  have := List.head?_dropWhile_not p cs
  rw [hd] at this
  exact this

theorem length_le_run {p : Char → Bool} {x cs : List Char} (h : x <+: cs) (hx : ∀ d ∈ x, p d = true) :
    x.length ≤ run p cs := by
  obtain ⟨z, rfl⟩ := h
  unfold run
  rw [List.takeWhile_append_of_pos hx, List.length_append]
  omega

/-! ### One rule after the other -/

theorem longest_blanks (hc : isBlank c = true) (hw : ∀ d ∈ w, isBlank d = true)
    (hrun : run isBlank (w ++ rest) = w.length) : Longest .blanks (c :: w) (c :: (w ++ rest)) := by
  refine longest_of (mem_blanks.2 ⟨List.cons_ne_nil _ _, ?_⟩) ?_ (fun h => by cases h)
  · intro d hd
    rcases List.mem_cons.1 hd with rfl | hd
    · exact hc
    · exact hw d hd
  · intro kind x hk hx hp
    obtain rfl : kind = .blanks := admits_of_openingOf (hk.trans (opening_blank hc))
    rw [← hrun]
    exact length_le_run hp fun d hd => (mem_blanks.1 hx).2 d (List.mem_cons_of_mem c hd)

theorem longest_newline (cs : List Char) : Longest .newline ['\n'] ('\n' :: cs) := by
  refine longest_of (w := []) rfl ?_ (fun h => by cases h)
  intro kind x hk hx _
  obtain rfl : kind = .newline := admits_of_openingOf hk
  cases (show '\n' :: x = ['\n'] from hx)
  exact Nat.le_refl 0

theorem longest_string (h : '"' ∉ w) : Longest .string ('"' :: (w ++ ['"'])) ('"' :: (w ++ ['"'] ++ rest)) := by
  refine longest_of (mem_string.2 ⟨w, h, rfl⟩) ?_ (fun h => by cases h)
  intro kind x hk hx hp
  obtain rfl : kind = .string := admits_of_openingOf hk
  obtain ⟨v, hv, hxv⟩ := mem_string.1 hx
  cases hxv
  obtain ⟨z, hz⟩ := hp
  have hrun : run (· ≠ '"') (v ++ '"' :: z) = v.length := run_quote hv
  rw [List.append_assoc, List.append_assoc, List.singleton_append, List.singleton_append] at hz
  rw [hz, run_quote h] at hrun
  rw [List.length_append, List.length_append, hrun]

theorem longest_word (hc : isWordStart c = true) (hw : ∀ d ∈ w, isWordPart d = true)
    (hrun : run isWordPart (w ++ rest) = w.length) : Longest (wordKind (c :: w)) (c :: w) (c :: (w ++ rest)) := by
  refine longest_of ?_ ?_ ?_
  · unfold wordKind
    split
    · next k hk => exact (by simpa using List.find?_some hk : k.spelling.toList = _).symm
    · exact mem_identifier.2 ⟨c, _, rfl, hc, hw⟩
  · intro kind x hk hx hp
    rw [← hrun]
    refine length_le_run hp fun d hd => ?_
    rcases admits_of_openingOf (hk.trans (opening_letter hc)) with ⟨k, rfl⟩ | rfl
    · obtain ⟨c', cs', hs, -, hall⟩ := keyword_spelling_eq k
      cases (show c :: x = k.spelling.toList from hx).trans hs
      exact List.all_eq_true.1 hall d hd
    · obtain ⟨c', cs', hs, -, hall⟩ := mem_identifier.1 hx
      cases hs
      exact hall d hd
  · intro hkind k hs
    rw [hs, wordKind_spelling] at hkind
    cases hkind

/-- A number in front of digits is made of those only, or goes on behind all of them with a point and more digits. -/
theorem length_le_of_number {x : List Char} (hx : c :: x ∈ lexemes .number) (hp : x <+: w ++ rest)
    (hw : ∀ d ∈ w, d.isDigit = true) (hrest : ∀ d, rest.head? = some d → d.isDigit = false) : x.length ≤ w.length ∨
      ∃ es, es ≠ [] ∧ (∀ d ∈ es, d.isDigit = true) ∧ '.' :: es <+: rest ∧ x = w ++ '.' :: es := by
  obtain ⟨ds, ⟨hne, hds⟩, rfl | ⟨es, ⟨hes, hdigits⟩, hxy⟩⟩ := mem_number.1 hx
  · rw [← run_append hw hrest]
    exact .inl (length_le_run hp fun d hd => hds d (List.mem_cons_of_mem c hd))
  · obtain ⟨d, ds, rfl⟩ := List.exists_cons_of_ne_nil hne
    obtain ⟨rfl, rfl⟩ := List.cons.inj hxy
    obtain ⟨z, hz⟩ := hp
    rw [List.append_eq, List.append_assoc] at hz
    have hlen : ds.length = w.length := by
      rw [← run_append hw hrest, ← hz]
      exact (run_append (fun c hc => hds c (List.mem_cons_of_mem _ hc)) (fun d hd => by cases hd; decide)).symm
    obtain ⟨rfl, rfl⟩ := List.append_inj hz hlen
    exact .inr ⟨es, hes, hdigits, ⟨z, rfl⟩, rfl⟩

theorem longest_whole (hc : c.isDigit = true) (hw : ∀ d ∈ w, d.isDigit = true)
    (hrest : ∀ d, rest.head? = some d → d.isDigit = false)
    (hpoint : ∀ places, rest = '.' :: places → run Char.isDigit places = 0) :
    Longest .number (c :: w) (c :: (w ++ rest)) := by
  refine longest_of (mem_number.2 ⟨c :: w, ⟨List.cons_ne_nil _ _, List.forall_mem_cons.2 ⟨hc, hw⟩⟩, .inl rfl⟩) ?_
    (fun h => by cases h)
  intro kind x hk hx hp
  obtain rfl : kind = .number := admits_of_openingOf (hk.trans (opening_digit hc))
  rcases length_le_of_number hx hp hw hrest with h | ⟨es, hes, hdigits, ⟨z, rfl⟩, -⟩
  · exact h
  · have h0 := length_le_run (List.prefix_append es z) hdigits
    rw [hpoint (es ++ z) rfl] at h0
    exact absurd (List.length_eq_zero_iff.1 (Nat.le_zero.1 h0)) hes

theorem longest_fraction {es : List Char} (hc : c.isDigit = true) (hw : ∀ d ∈ w, d.isDigit = true) (hes : es ≠ [])
    (hdigits : ∀ d ∈ es, d.isDigit = true) (hrest : ∀ d, rest.head? = some d → d.isDigit = false) :
    Longest .number (c :: (w ++ '.' :: es)) (c :: (w ++ '.' :: es ++ rest)) := by
  refine longest_of (mem_number.2 ⟨c :: w, ⟨List.cons_ne_nil _ _, List.forall_mem_cons.2 ⟨hc, hw⟩⟩,
    .inr ⟨es, ⟨hes, hdigits⟩, rfl⟩⟩) ?_ (fun h => by cases h)
  intro kind x hk hx hp
  obtain rfl : kind = .number := admits_of_openingOf (hk.trans (opening_digit hc))
  rw [List.append_assoc, List.cons_append] at hp
  rcases length_le_of_number hx hp hw (fun d hd => by cases hd; decide) with h | ⟨es', -, hdigits', hp', rfl⟩
  · rw [List.length_append]; omega
  · have := length_le_run (List.cons_prefix_cons.1 hp').2 hdigits'
    rw [run_append hdigits hrest] at this
    simp only [List.length_append, List.length_cons]
    omega

theorem spelling_slash {s : Symbol} {x : List Char} (h : s.spelling.toList = '/' :: x) : x = [] := by
  obtain ⟨c, cs, hs, -, -, -, -, -, rfl | ⟨hne, -⟩⟩ := symbol_spelling_eq s
  · exact (List.cons.inj (h.symm.trans hs)).2
  · exact absurd (List.cons.inj (h.symm.trans hs)).1.symm hne

theorem longest_comment (hw : '\n' ∉ w) (hrest : ∀ d, rest.head? = some d → d = '\n') :
    Longest .comment ('/' :: '/' :: w) ('/' :: ('/' :: w ++ rest)) := by
  refine longest_of (mem_comment.2 ⟨w, hw, rfl⟩) ?_ (fun h => by cases h)
  intro kind x hk hx hp
  rcases admits_of_openingOf hk with ⟨s, rfl⟩ | rfl | rfl
  · -- no symbol is longer than the stroke that it begins with
    obtain rfl := spelling_slash (Eq.symm hx)
    exact Nat.zero_le _
  · obtain ⟨v, hv, hxv⟩ := mem_comment.1 hx
    obtain rfl := (List.cons.inj hxv).2
    have hrun : run (· ≠ '\n') (w ++ rest) = w.length :=
      run_append (fun c hc => by simpa using fun he : c = '\n' => hw (he ▸ hc)) (fun d hd => by simp [hrest d hd])
    have := length_le_run (p := (· ≠ '\n')) (List.cons_prefix_cons.1 hp).2
      (fun c hc => by simpa using fun he : c = '\n' => hv (he ▸ hc))
    simp only [List.append_eq, hrun] at this
    exact Nat.succ_le_succ this
  · exact absurd hx (Language.notMem_zero _)

/-! ### Symbols -/

theorem spelling_tail {s : Symbol} {x : List Char} (h : s.spelling.toList = c :: x) : x = [] ∨ x = ['='] := by
  obtain ⟨c', cs, hs, -, -, -, -, -, hx⟩ := symbol_spelling_eq s
  cases h.symm.trans hs
  exact hx.imp_right And.right

theorem symbolAt?_eq_some {s : Symbol} {cs : List Char} (h : symbolAt? c cs = some s) :
    ∃ x, s.spelling.toList = c :: x ∧ x <+: cs ∧
      ∀ (s' : Symbol) (x' : List Char), s'.spelling.toList = c :: x' → x' <+: cs → x'.length ≤ x.length := by
  rcases Option.or_eq_some_iff.1 h with h | ⟨hnone, h⟩
  · refine ⟨cs.take 1, by simpa using List.find?_some h, List.take_prefix 1 cs, fun s' x' hs' hp => ?_⟩
    have hlen : x'.length ≤ 1 := by
      rcases spelling_tail hs' with rfl | rfl <;> decide
    rw [List.length_take]
    exact Nat.le_min.2 ⟨hlen, hp.length_le⟩
  · refine ⟨[], by simpa using List.find?_some h, List.nil_prefix, fun s' x' hs' hp => ?_⟩
    rcases spelling_tail hs' with rfl | rfl
    · exact Nat.le_refl 0
    · -- the longer of the two would have been found
      obtain ⟨z, rfl⟩ := hp
      have := List.find?_eq_none.1 hnone s' (Symbol.mem_all s')
      simp [hs'] at this

theorem symbolAt?_eq_none {cs : List Char} (h : symbolAt? c cs = none) (s : Symbol) {x : List Char}
    (hs : s.spelling.toList = c :: x) : ¬ x <+: cs := by
  obtain ⟨hpair, hsingle⟩ := Option.or_eq_none_iff.1 h
  intro hp
  rcases spelling_tail hs with rfl | rfl
  · have := List.find?_eq_none.1 hsingle s (Symbol.mem_all s)
    simp [hs] at this
  · obtain ⟨z, rfl⟩ := hp
    have := List.find?_eq_none.1 hpair s (Symbol.mem_all s)
    simp [hs] at this

theorem eq_symbol_of_mark {x cs : List Char} (hc : opening c = .mark) (hk : openingOf kind = opening c)
    (hx : c :: x ∈ lexemes kind) (hp : x <+: cs) (hcomment : ¬ (c = '/' ∧ cs.head? = some '/')) :
    ∃ s : Symbol, s.spelling.toList = c :: x := by
  rcases admits_of_openingOf (hk.trans hc) with ⟨s, rfl⟩ | rfl | rfl
  · exact ⟨s, Eq.symm hx⟩
  · obtain ⟨v, -, hxv⟩ := mem_comment.1 hx
    obtain ⟨rfl, rfl⟩ := List.cons.inj hxv
    obtain ⟨z, rfl⟩ := hp
    exact absurd ⟨rfl, rfl⟩ hcomment
  · exact absurd hx (Language.notMem_zero _)

theorem longest_symbol {s : Symbol} (hc : opening c = .mark) (hs : s.spelling.toList = c :: w)
    (hcomment : ¬ (c = '/' ∧ (w ++ rest).head? = some '/'))
    (hmax : ∀ (s' : Symbol) (x' : List Char), s'.spelling.toList = c :: x' → x' <+: w ++ rest → x'.length ≤ w.length) :
    Longest (.symbol s) (c :: w) (c :: (w ++ rest)) := by
  refine longest_of (Eq.symm hs) ?_ (fun h => by cases h)
  intro kind x hk hx hp
  obtain ⟨s', hs'⟩ := eq_symbol_of_mark hc hk hx hp hcomment
  exact hmax s' x hs' hp

end

end Segment
end LoxExpr
