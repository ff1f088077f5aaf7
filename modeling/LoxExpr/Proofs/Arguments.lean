import LoxExpr.CommandLine.Session
/-!
# Arguments: what can be asked of the command

Every choice of options with a budget of 64 bits can be written on a command line, for a script as well as for the prompt
(`ofArgs_arguments`, `ofArgs_scriptArguments`), and a script can hold any text (`decode?_eq_some_iff`).
-/
namespace LoxExpr
namespace CommandLine

/-! ## Options -/

/-- Arguments that ask for these options. -/
def Options.arguments (o : Options) : List String :=
  (if o.tokens then ["--tokens"] else []) ++ ((if o.ast then ["--ast"] else []) ++ ["--max-depth", o.budget.repr])

theorem isDigit_of_mem_digits {n : Nat} : ∀ c ∈ Nat.toDigits 10 n, c.isDigit = true :=
  fun _ hc => Nat.isDigit_of_mem_toDigits (by decide) (by decide) hc

/-- A number does not begin with a sign. -/
theorem digits_ne_cons {n : Nat} {c : Char} (hc : c.isDigit = false) (cs : List Char) : Nat.toDigits 10 n ≠ c :: cs := by
  intro h
  have hdigit := isDigit_of_mem_digits (n := n) c (h ▸ List.mem_cons_self)
  rw [hc] at hdigit
  cases hdigit

theorem budgetOf?_repr {n : Nat} (h : n < UInt64.size) : budgetOf? n.repr = some n := by
  unfold budgetOf?
  rw [Nat.toList_repr]
  dsimp only
  split
  case h_1 cs heq => exact absurd heq (digits_ne_cons (by decide) cs)
  case h_2 =>
    rw [if_pos ⟨Nat.toDigits_ne_nil, List.all_eq_true.2 isDigit_of_mem_digits⟩, Nat.ofDigitChars_ten_toDigits, if_pos h]

theorem ofText_repr (n : Nat) : Arg.ofText n.repr = .operand n.repr := by
  unfold Arg.ofText
  rw [Nat.toList_repr]
  split
  case h_1 heq => exact absurd heq (digits_ne_cons (by decide) _)
  case h_2 heq => exact absurd heq (digits_ne_cons (by decide) _)
  case h_3 heq => exact absurd heq (digits_ne_cons (by decide) _)
  case h_4 => rfl

/-- An option that is neither answered at once nor followed by a number is a flag. -/
theorem readArgs_flag {g g' : Given} (arg name : String) (harg : Arg.ofText arg = .long name none)
    (hname : name ≠ "version" ∧ name ≠ "help" ∧ name ≠ "max-depth") (hflag : g.withFlag name none = .ok g')
    (rest : List String) : readArgs g (arg :: rest) = readArgs g' rest := by
  obtain ⟨hversion, hhelp, hdepth⟩ := hname
  cases rest <;> simp [readArgs.eq_def g, harg, hversion, hhelp, hdepth, hflag, bind, Except.bind]

theorem readArgs_budget {g : Given} (h : g.budget = none) {n : Nat} (hn : n < UInt64.size) (rest : List String) :
    readArgs g ("--max-depth" :: n.repr :: rest) = readArgs { g with budget := some n } rest := by
  have hlong : Arg.ofText "--max-depth" = .long "max-depth" none := by decide
  have hbudget : g.withBudget n.repr = .ok { g with budget := some n } := by simp [Given.withBudget, budgetOf?_repr hn, h]
  rw [readArgs]
  simp only [hlong, ofText_repr, hbudget]
  rfl

/-- What the arguments ask for is given, whatever follows. -/
theorem readArgs_arguments {o : Options} (h : o.budget < UInt64.size) (rest : List String) :
    readArgs .nothing (o.arguments ++ rest) = readArgs ⟨none, o.tokens, o.ast, some o.budget⟩ rest := by
  have htokens : ∀ rest, readArgs ⟨none, false, false, none⟩ ("--tokens" :: rest) = readArgs ⟨none, true, false, none⟩ rest :=
    readArgs_flag "--tokens" "tokens" (by decide) (by decide) rfl
  have hast : ∀ tokens rest, readArgs ⟨none, tokens, false, none⟩ ("--ast" :: rest) = readArgs ⟨none, tokens, true, none⟩ rest :=
    fun tokens => readArgs_flag "--ast" "ast" (by decide) (by decide) rfl
  obtain ⟨tokens, ast, budget⟩ := o
  cases tokens <;> cases ast <;> simp [Options.arguments, htokens, hast, readArgs_budget, h, Given.nothing]

/-- **All options can be asked for**, at the prompt and for a script. -/
theorem ofArgs_arguments {o : Options} (h : o.budget < UInt64.size) : Request.ofArgs o.arguments = .ok (.start none o) := by
  have hread := readArgs_arguments h []
  rw [List.append_nil] at hread
  exact hread

theorem ofArgs_scriptArguments {o : Options} (h : o.budget < UInt64.size) {path : String} (hpath : path ≠ "") :
    Request.ofArgs (o.arguments ++ ["--", path]) = .ok (.start (some path) o) := by
  have hscript : (⟨none, o.tokens, o.ast, some o.budget⟩ : Given).withScript path =
      .ok ⟨some path, o.tokens, o.ast, some o.budget⟩ := by simp [Given.withScript, hpath]
  have hseparator : Arg.ofText "--" = .separator := by decide
  refine (readArgs_arguments h ["--", path]).trans ?_
  rw [readArgs]
  simp only [hseparator, readOperands, hscript]
  rfl

/-! ## Scripts -/

/-- The bytes of a text. -/
def encode (text : String) : List UInt8 := text.toByteArray.data.toList

/-- **The bytes of a text are the only ones that are read as the text.** -/
theorem decode?_eq_some_iff {bytes : List UInt8} {text : String} : decode? bytes = some text ↔ bytes = encode text := by
  unfold decode? String.fromUTF8?
  constructor
  · intro h
    split at h
    · cases h
      exact List.toList_data_toByteArray.symm
    · cases h
  · rintro rfl
    have hbytes : (encode text).toByteArray = text.toByteArray := by
      apply ByteArray.ext
      rw [List.data_toByteArray, encode, Array.toArray_toList]
    rw [dif_pos (hbytes ▸ text.isValidUTF8), Option.some.injEq, ← String.toByteArray_inj]
    exact hbytes

end CommandLine
end LoxExpr
