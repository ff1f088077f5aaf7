import LoxExpr.Proofs.Lines
import LoxExpr.Proofs.SyntaxErrors
/-!
# Alike: lists that are read in step

Of a token a reading looks at the kind and the literal, and of the end of a list at nothing but that it is the end: whether
the closing token stands there or the tokens have run out comes to the same.  So two lists that are the same up to their ends
but for lines (`Alike`) are read in step: to each step in the one there is a step in the other, and the states stay in step
(`InStep`).

Either both lists are the same tree, but for the lines of its operators, or both are refused for the same reason and at the
same place (`ofTokens_alike`).  The line of such an error is that of the token it is at, or else the line of the end
(`endLine`), and no line is made up on the way.
-/
namespace LoxExpr

/-! ## Other lines -/

/-- The same token on another line. -/
def Token.relined (φ : Nat → Nat) (t : Token) : Token := { t with line := φ t.line }

/-- The same tree with its operators on other lines. -/
def Expr.relined (φ : Nat → Nat) : Expr → Expr
  | literal v => literal v
  | group e => group (e.relined φ)
  | unary op t e => unary op (t.relined φ) (e.relined φ)
  | binary l op t r => binary (l.relined φ) op (t.relined φ) (r.relined φ)

theorem Expr.relined_add (e : Expr) (k : Nat) : e.relined (· + k) = e.down k := by
  induction e with
  | literal v => rfl
  | group e ih => simp only [relined, down, ih]
  | unary op t e ih => simp only [relined, down, ih]; rfl
  | binary l op t r ihl ihr => simp only [relined, down, ihl, ihr]; rfl

namespace Parsing

/-! ## Lists -/

/-- **Two lists are alike up to their ends**: token by token, the second one has those of the first on other lines. -/
inductive Alike (φ : Nat → Nat) : List Token → List Token → Prop
  | ends {ts us} : AtEnd ts → AtEnd us → Alike φ ts us
  | cons {t ts us} : t.kind ≠ .eof → Alike φ ts us → Alike φ (t :: ts) (t.relined φ :: us)

/-- **The line of an error at the end**: that of the closing token, or of the last token if there is none. -/
def endLine (line : Nat) : List Token → Nat
  | [] => line
  | t :: ts => if t.kind = .eof then t.line else endLine t.line ts

section
variable {φ : Nat → Nat} {ts us : List Token}

theorem Alike.atEnd_iff (h : Alike φ ts us) : AtEnd ts ↔ AtEnd us := by
  cases h with
  | ends ht hu => exact ⟨fun _ => hu, fun _ => ht⟩
  | cons hk _ => exact ⟨fun ht => absurd (ht _ rfl) hk, fun hu => absurd (hu _ rfl) hk⟩

theorem alike_map (ts : List Token) : Alike φ ts (ts.map (Token.relined φ)) := by
  induction ts with
  | nil => exact .ends (fun _ h => nomatch h) (fun _ h => nomatch h)
  | cons t ts ih =>
    by_cases hk : t.kind = .eof
    · exact .ends (fun _ h => by cases h; exact hk) (fun _ h => by cases h; exact hk)
    · exact .cons hk ih

theorem endLine_of_atEnd {line : Nat} (h : AtEnd ts) {cause : ParseError.Cause} :
    errorAt cause line ts = ⟨cause, .atEnd, endLine line ts⟩ := by
  cases ts with
  | nil => rfl
  | cons t ts =>
    have hk : t.kind = .eof := h t rfl
    simp only [errorAt, ParseError.atToken, Location.ofToken, endLine, hk, if_true]

/-- Where there is a closing token, the line of the end is its line. -/
theorem endLine_map (line line' : Nat) (h : ∃ t ∈ ts, t.kind = .eof) :
    endLine line' (ts.map (Token.relined φ)) = φ (endLine line ts) := by
  induction ts generalizing line line' with
  | nil =>
    obtain ⟨t, ht, -⟩ := h
    cases ht
  | cons t ts ih =>
    simp only [List.map_cons, endLine, Token.relined]
    split
    · rfl
    · next hk =>
      obtain ⟨u, hu, hu'⟩ := h
      rcases List.mem_cons.1 hu with rfl | hu
      · exact absurd hu' hk
      · exact ih _ _ ⟨u, hu, hu'⟩

end

/-! ## States -/

/-- **Two states in step**: lists that are alike are left at the same depth, and their ends are on the lines `m` and `n`. -/
structure InStep (φ : Nat → Nat) (m n : Nat) (s r : State) : Prop where
  alike : Alike φ s.rest r.rest
  depth : r.depth = s.depth
  left : endLine s.lastLine s.rest = m
  right : endLine r.lastLine r.rest = n

section
variable {φ : Nat → Nat} {m n : Nat} {s s₁ s' r r₁ r' : State} {t u : Token}

theorem InStep.charged (h : InStep φ m n s r) (cost : Nat) : InStep φ m n (s.charged cost) (r.charged cost) :=
  ⟨h.alike, congrArg (· + cost) h.depth, h.left, h.right⟩

theorem InStep.restore (h : InStep φ m n s r) (h' : InStep φ m n s' r') :
    InStep φ m n (s'.restore s.depth) (r'.restore r.depth) :=
  ⟨h'.alike, h.depth, h'.left, h'.right⟩

theorem InStep.next (h : InStep φ m n s r) (hs : s.next? = some (t, s₁)) (hk : t.kind ≠ .eof) :
    ∃ r₁, r.next? = some (t.relined φ, r₁) ∧ InStep φ m n s₁ r₁ := by
  obtain ⟨ts, hts, rfl⟩ := State.next?_eq_some_iff.1 hs
  obtain ⟨halike, hdepth, hm, hn⟩ := h
  rw [hts] at halike hm
  generalize hus : r.rest = us at halike hn
  cases halike with
  | ends ht _ => exact absurd (ht t rfl) hk
  | @cons _ _ us _ ha =>
    rw [endLine, if_neg hk] at hm
    rw [endLine, if_neg (show (t.relined φ).kind ≠ .eof from hk)] at hn
    exact ⟨_, State.next?_of_rest hus, ha, hdepth, hm, hn⟩

theorem InStep.next_back (h : InStep φ m n s r) (hr : r.next? = some (u, r₁)) (hk : u.kind ≠ .eof) :
    ∃ t s₁, s.next? = some (t, s₁) ∧ u = t.relined φ := by
  obtain ⟨us, hus, rfl⟩ := State.next?_eq_some_iff.1 hr
  have halike := h.alike
  rw [hus] at halike
  generalize hts : s.rest = ts at halike
  cases halike with
  | ends _ hu => exact absurd (hu u rfl) hk
  | cons _ _ => exact ⟨_, _, State.next?_of_rest hts, rfl⟩

/-- What is missing by the kind of the next token is missing in both states, provided that it is missing at the end. -/
theorem InStep.bind_next?_eq_none {α : Type} {f : Token × State → Option α}
    (hf : ∀ t s₁ r₁, f (t, s₁) = none → f (t.relined φ, r₁) = none) (hend : ∀ u r₁, u.kind = .eof → f (u, r₁) = none)
    (h : InStep φ m n s r) (hs : s.next?.bind f = none) : r.next?.bind f = none := by
  cases hr : r.next? with
  | none => rfl
  | some x =>
    obtain ⟨u, r₁⟩ := x
    by_cases hk : u.kind = .eof
    · exact hend u r₁ hk
    · obtain ⟨t, s₁, hn, rfl⟩ := h.next_back hr hk
      rw [hn] at hs
      exact hf t s₁ r₁ hs

theorem InStep.prefixOp? {op : UnaryOp} (h : InStep φ m n s r) (hs : s.prefixOp? = some (op, t, s₁)) :
    ∃ r₁, r.prefixOp? = some (op, t.relined φ, r₁) ∧ InStep φ m n s₁ r₁ := by
  obtain ⟨hn, hk⟩ := State.prefixOp?_eq_some_iff.1 hs
  obtain ⟨r₁, hr, h₁⟩ := h.next hn (by rw [hk]; nofun)
  exact ⟨r₁, State.prefixOp?_eq_some_iff.2 ⟨hr, hk⟩, h₁⟩

theorem InStep.prefixOp?_eq_none (h : InStep φ m n s r) (hs : s.prefixOp? = none) : r.prefixOp? = none :=
  h.bind_next?_eq_none (by simp [Token.relined]) (fun u r₁ hk => by simp only [hk]; rfl) hs

theorem InStep.linkOp? {l : Layer} {op : BinaryOp} (h : InStep φ m n s r) (hs : s.linkOp? l = some (op, t, s₁)) :
    ∃ r₁, r.linkOp? l = some (op, t.relined φ, r₁) ∧ InStep φ m n s₁ r₁ := by
  obtain ⟨hn, hk, hl⟩ := State.linkOp?_eq_some_iff.1 hs
  obtain ⟨r₁, hr, h₁⟩ := h.next hn (by rw [hk]; nofun)
  exact ⟨r₁, State.linkOp?_eq_some_iff.2 ⟨hr, hk, hl⟩, h₁⟩

theorem InStep.linkOp?_eq_none {l : Layer} (h : InStep φ m n s r) (hs : s.linkOp? l = none) : r.linkOp? l = none :=
  h.bind_next?_eq_none (by simp [Token.relined]) (fun u r₁ hk => by simp only [hk]; rfl) hs

theorem InStep.closingParen? (h : InStep φ m n s r) (hs : s.closingParen? = some s₁) :
    ∃ r₁, r.closingParen? = some r₁ ∧ InStep φ m n s₁ r₁ := by
  obtain ⟨t, hn, hk⟩ := State.closingParen?_eq_some_iff.1 hs
  obtain ⟨r₁, hr, h₁⟩ := h.next hn (by rw [hk]; nofun)
  exact ⟨r₁, State.closingParen?_eq_some_iff.2 ⟨_, hr, hk⟩, h₁⟩

theorem InStep.closingParen?_eq_none (h : InStep φ m n s r) (hs : s.closingParen? = none) : r.closingParen? = none :=
  h.bind_next?_eq_none (by simp +contextual [Token.relined]) (fun u r₁ hk => by simp [hk]) hs

end

/-! ## Readings -/

/-- The same task; what has been read of a chain has its operators on other lines. -/
def Task.relined (φ : Nat → Nat) : Task → Task
  | rule r => rule r
  | links l left => links l (left.relined φ)

section
variable {φ : Nat → Nat} {m n budget : Nat} {task : Task} {s s' r : State} {e : Expr} {f : Failure}

/-- **What is read in one state is read in the other**, as the same tree but for lines. -/
theorem Reads.inStep (h : Reads budget task s e s') (hr : InStep φ m n s r) :
    ∃ r', Reads budget (task.relined φ) r (e.relined φ) r' ∧ InStep φ m n s' r' := by
  induction h generalizing r with
  | layer _ _ ih₁ ih₂ =>
    obtain ⟨r₁, h₁, hr₁⟩ := ih₁ hr
    obtain ⟨r₂, h₂, hr₂⟩ := ih₂ hr₁
    exact ⟨_, .layer h₁ h₂, hr.restore hr₂⟩
  | noPrefix hp _ ih =>
    obtain ⟨r₁, h₁, hr₁⟩ := ih hr
    exact ⟨r₁, .noPrefix (hr.prefixOp?_eq_none hp) h₁, hr₁⟩
  | withPrefix hp hb _ ih =>
    obtain ⟨r₁, hp', hr₁⟩ := hr.prefixOp? hp
    obtain ⟨r₂, h₂, hr₂⟩ := ih (hr₁.charged operatorCost)
    exact ⟨_, .withPrefix hp' (by rw [hr₁.depth]; exact hb) h₂, hr.restore hr₂⟩
  | literal hn hv =>
    obtain ⟨r₁, hn', hr₁⟩ := hr.next hn (Grammar.kind_ne_eof_of_literalOf? hv)
    exact ⟨r₁, .literal hn' hv, hr₁⟩
  | group hn hv hk hb _ hc ih =>
    obtain ⟨r₁, hn', hr₁⟩ := hr.next hn (by rw [hk]; nofun)
    obtain ⟨r₂, h₂, hr₂⟩ := ih (hr₁.charged groupCost)
    obtain ⟨r₃, hc', hr₃⟩ := (hr.restore hr₂).closingParen? hc
    exact ⟨r₃, .group hn' hv hk (by rw [hr₁.depth]; exact hb) h₂ hc', hr₃⟩
  | noLink hl => exact ⟨r, .noLink (hr.linkOp?_eq_none hl), hr⟩
  | link hl hb _ _ ih₁ ih₂ =>
    obtain ⟨r₁, hl', hr₁⟩ := hr.linkOp? hl
    obtain ⟨r₂, h₂, hr₂⟩ := ih₁ (hr₁.charged operatorCost)
    obtain ⟨r₃, h₃, hr₃⟩ := ih₂ hr₂
    exact ⟨r₃, .link hl' (by rw [hr₁.depth]; exact hb) h₂ h₃, hr₃⟩

/-! ## Failures -/

/-- **The same error on another line**: that of the token it is at, or the one or the other line of the end. -/
structure SameError (φ : Nat → Nat) (m n : Nat) (err err' : ParseError) : Prop where
  cause : err'.cause = err.cause
  location : err'.location = err.location
  line : if err.location = .atEnd then err.line = m ∧ err'.line = n else err'.line = φ err.line

theorem sameError_atToken {t : Token} (hk : t.kind ≠ .eof) (cause : ParseError.Cause) :
    SameError φ m n (ParseError.atToken cause t) (ParseError.atToken cause (t.relined φ)) := by
  refine ⟨rfl, rfl, ?_⟩
  have hlocation : (ParseError.atToken cause t).location ≠ .atEnd := by
    simp [ParseError.atToken, Location.ofToken, hk]
  rw [if_neg hlocation]
  rfl

theorem sameError_refused {t : Token} (hk : t.kind ≠ .eof) (budget cost : Nat) (s r : State) :
    SameError φ m n (s.refused budget cost t).error (r.refused budget cost (t.relined φ)).error := by
  rw [State.error_refused, State.error_refused]
  exact sameError_atToken hk _

theorem InStep.sameError_failHere (h : InStep φ m n s r) (cause : ParseError.Cause) :
    SameError φ m n (s.failHere cause).error (r.failHere cause).error := by
  obtain ⟨halike, -, rfl, rfl⟩ := h
  rw [State.error_failHere, State.error_failHere]
  generalize s.rest = ts at halike ⊢
  generalize r.rest = us at halike ⊢
  cases halike with
  | ends hs hr =>
    rw [endLine_of_atEnd hs, endLine_of_atEnd hr]
    exact ⟨rfl, rfl, by rw [if_pos rfl]; exact ⟨rfl, rfl⟩⟩
  | cons hk _ => exact sameError_atToken hk cause

/-- No literal and no group begins with the next token, if there is one. -/
def NoPrimary (s : State) : Prop :=
  ∀ t s₁, s.next? = some (t, s₁) → literalOf? t = none ∧ t.kind ≠ .symbol .leftParen

theorem NoPrimary.fails (h : NoPrimary s) :
    ∃ f, Fails budget (.rule .primary) s f ∧ f.error = (s.failHere .expectedExpression).error := by
  cases hn : s.next? with
  | none => exact ⟨_, .noToken hn, rfl⟩
  | some x =>
    obtain ⟨t, s₁⟩ := x
    obtain ⟨hv, hk⟩ := h t s₁ hn
    obtain ⟨ts, hs, -⟩ := State.next?_eq_some_iff.1 hn
    exact ⟨_, .noExpression hn hv hk, by rw [State.error_failHere, hs]; rfl⟩

theorem InStep.noPrimary (h : InStep φ m n s r) (hs : NoPrimary s) : NoPrimary r := by
  intro u r₁ hr
  by_cases hk : u.kind = .eof
  · exact ⟨by simp [literalOf?, hk], by simp [hk]⟩
  · obtain ⟨t, s₁, hn, rfl⟩ := h.next_back hr hk
    exact hs t s₁ hn

/-- **What fails in one state fails in the other**, with the same error but for its line. -/
theorem Fails.inStep (h : Fails budget task s f) (hr : InStep φ m n s r) :
    ∃ f', Fails budget (task.relined φ) r f' ∧ SameError φ m n f.error f'.error := by
  -- what is read before the failure is read in both (`Reads.inStep`), and the states are in step where it happens
  induction h generalizing r with
  | operand _ ih =>
    obtain ⟨f', hf, he⟩ := ih hr
    exact ⟨f', .operand hf, he⟩
  | chain hread _ ih =>
    obtain ⟨r₁, h₁, hr₁⟩ := hread.inStep hr
    obtain ⟨f', hf, he⟩ := ih hr₁
    exact ⟨f', .chain h₁ hf, he⟩
  | noPrefix hp _ ih =>
    obtain ⟨f', hf, he⟩ := ih hr
    exact ⟨f', .noPrefix (hr.prefixOp?_eq_none hp) hf, he⟩
  | prefixRefused hp hb =>
    obtain ⟨r₁, hp', hr₁⟩ := hr.prefixOp? hp
    obtain ⟨-, hk⟩ := State.prefixOp?_eq_some_iff.1 hp
    exact ⟨_, .prefixRefused hp' (by rw [hr₁.depth]; exact hb), sameError_refused (by rw [hk]; nofun) _ _ _ _⟩
  | withPrefix hp hb _ ih =>
    obtain ⟨r₁, hp', hr₁⟩ := hr.prefixOp? hp
    obtain ⟨f', hf, he⟩ := ih (hr₁.charged operatorCost)
    exact ⟨f', .withPrefix hp' (by rw [hr₁.depth]; exact hb) hf, he⟩
  | @noToken s hn =>
    have hs : NoPrimary s := fun t s₁ h => by rw [hn] at h; cases h
    obtain ⟨f', hf, he⟩ := (hr.noPrimary hs).fails
    exact ⟨f', hf, by rw [he]; exact hr.sameError_failHere _⟩
  | @noExpression s t s₁ hn hv hk =>
    have hs : NoPrimary s := fun t' s' h => by rw [hn] at h; cases h; exact ⟨hv, hk⟩
    obtain ⟨f', hf, he⟩ := (hr.noPrimary hs).fails
    have hsame := hr.sameError_failHere .expectedExpression
    obtain ⟨ts, hts, -⟩ := State.next?_eq_some_iff.1 hn
    rw [← he, State.error_failHere, hts] at hsame
    exact ⟨f', hf, hsame⟩
  | @groupRefused s t s₁ hn hv hk hb =>
    have heof : t.kind ≠ .eof := by rw [hk]; nofun
    obtain ⟨r₁, hn', hr₁⟩ := hr.next hn heof
    exact ⟨_, .groupRefused hn' hv hk (by rw [hr₁.depth]; exact hb), sameError_refused heof _ _ _ _⟩
  | inGroup hn hv hk hb _ ih =>
    obtain ⟨r₁, hn', hr₁⟩ := hr.next hn (by rw [hk]; nofun)
    obtain ⟨f', hf, he⟩ := ih (hr₁.charged groupCost)
    exact ⟨f', .inGroup hn' hv hk (by rw [hr₁.depth]; exact hb) hf, he⟩
  | unclosed hn hv hk hb hread hc =>
    obtain ⟨r₁, hn', hr₁⟩ := hr.next hn (by rw [hk]; nofun)
    obtain ⟨r₂, h₂, hr₂⟩ := hread.inStep (hr₁.charged groupCost)
    have hback := hr.restore hr₂
    exact ⟨_, .unclosed hn' hv hk (by rw [hr₁.depth]; exact hb) h₂ (hback.closingParen?_eq_none hc),
      hback.sameError_failHere _⟩
  | linkRefused hl hb =>
    obtain ⟨r₁, hl', hr₁⟩ := hr.linkOp? hl
    obtain ⟨-, hk, -⟩ := State.linkOp?_eq_some_iff.1 hl
    exact ⟨_, .linkRefused hl' (by rw [hr₁.depth]; exact hb), sameError_refused (by rw [hk]; nofun) _ _ _ _⟩
  | right hl hb _ ih =>
    obtain ⟨r₁, hl', hr₁⟩ := hr.linkOp? hl
    obtain ⟨f', hf, he⟩ := ih (hr₁.charged operatorCost)
    exact ⟨f', .right hl' (by rw [hr₁.depth]; exact hb) hf, he⟩
  | link hl hb hread _ ih =>
    obtain ⟨r₁, hl', hr₁⟩ := hr.linkOp? hl
    obtain ⟨r₂, h₂, hr₂⟩ := hread.inStep (hr₁.charged operatorCost)
    obtain ⟨f', hf, he⟩ := ih hr₂
    exact ⟨f', .link hl' (by rw [hr₁.depth]; exact hb) h₂ hf, he⟩

end

/-! ## Whole lists -/

/-- **Lists that are alike are read alike**: as the same tree but for lines, or refused with the same error but for its
line. -/
theorem ofTokens_alike {φ : Nat → Nat} {ts us : List Token} (budget : Nat) (h : Alike φ ts us) :
    (∃ e, Expr.ofTokens budget ts = .ok e ∧ Expr.ofTokens budget us = .ok (e.relined φ)) ∨
    ∃ err err', Expr.ofTokens budget ts = .error err ∧ Expr.ofTokens budget us = .error err' ∧
      SameError φ (endLine 1 ts) (endLine 1 us) err err' := by
  have hstart : InStep φ (endLine 1 ts) (endLine 1 us) (State.start ts) (State.start us) := ⟨h, rfl, rfl, rfl⟩
  rcases reads_or_fails budget (.rule .expression) (State.start ts) with ⟨e, s, hs⟩ | ⟨f, hf⟩
  · obtain ⟨r, hr, hstep⟩ := hs.inStep hstart
    by_cases hend : AtEnd s.rest
    · exact .inl ⟨e, ofTokens_eq_ok_iff.2 ⟨s, hs, hend⟩, ofTokens_eq_ok_iff.2 ⟨r, hr, hstep.alike.atEnd_iff.1 hend⟩⟩
    · have hend' : ¬ AtEnd r.rest := fun hr => hend (hstep.alike.atEnd_iff.2 hr)
      exact .inr ⟨_, _, ofTokens_eq_error_iff.2 (.inr ⟨e, s, hs, hend, rfl⟩),
        ofTokens_eq_error_iff.2 (.inr ⟨_, r, hr, hend', rfl⟩), hstep.sameError_failHere _⟩
  · obtain ⟨f', hf', he⟩ := hf.inStep hstart
    exact .inr ⟨_, _, ofTokens_eq_error_iff.2 (.inl ⟨f, hf, rfl⟩), ofTokens_eq_error_iff.2 (.inl ⟨f', hf', rfl⟩), he⟩

end Parsing
end LoxExpr
