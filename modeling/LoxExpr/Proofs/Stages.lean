import LoxExpr.Proofs.Outcome
import LoxExpr.Proofs.Tokenization
/-!
# Stages: how far a run gets, and what it leaves behind

A run scans, parses and evaluates, and each stage may be its last.  There are four ways through (`Run.Goes`): the tokens are
no expression; the expression is withheld from evaluation, for a static error in this text or in an earlier one; it yields
a value; or it fails.  A way fixes the outcome, what an onlooker is shown and what is reported, and one of the four is
always taken.  Evaluation has no way to misuse an operator, so no run is aborted.

Of what was reported before, a run only asks whether it holds a static error, so it goes the same way into any two sinks
without one.
-/
namespace LoxExpr

/-! ## Evaluation of a tree -/

theorem UnaryOp.apply_ne_misused (op : UnaryOp) (t : Token) (v : Value) (m : Misuse) : op.apply t v ≠ .error (.misused m) := by
  rcases op.apply_cases v with ⟨u, h⟩ | ⟨c, h⟩ <;> simp [h]

theorem BinaryOp.apply_ne_misused (op : BinaryOp) (t : Token) (v w : Value) (m : Misuse) :
    op.apply t v w ≠ .error (.misused m) := by
  rcases op.apply_cases v w with ⟨u, h⟩ | ⟨c, h⟩ <;> simp [h]

theorem Expr.evaluate_ne_misused (e : Expr) (m : Misuse) : e.evaluate ≠ .error (.misused m) := by
  induction e with
  | literal v => simp [Expr.evaluate]
  | group e ih => exact ih
  | unary op t e ih =>
    intro h
    rw [Expr.evaluate] at h
    cases hv : e.evaluate with
    | error s => rw [hv] at h; exact ih (hv.trans h)
    | ok v => rw [hv] at h; exact op.apply_ne_misused t v m h
  | binary l op t r ihl ihr =>
    intro h
    rw [Expr.evaluate] at h
    cases hv : l.evaluate with
    | error s => rw [hv] at h; exact ihl (hv.trans h)
    | ok v =>
      rw [hv] at h
      cases hw : r.evaluate with
      | error s => rw [hw] at h; exact ihr (hw.trans h)
      | ok w => rw [hw] at h; exact op.apply_ne_misused t v w m h

/-! ## Static errors -/

theorem Diagnostics.hadError_reportAll (sink : Diagnostics) (new : List Diagnostic) :
    (sink.reportAll new).hadError = (sink.hadError || new.any Diagnostic.isStatic) :=
  List.any_append

theorem Scan.any_isStatic_diagnostics (s : Scan) : s.diagnostics.any Diagnostic.isStatic = !s.errors.isEmpty := by
  unfold Scan.diagnostics
  cases s.errors <;> simp [Diagnostic.isStatic]

namespace Run

/-! ## Ways through a run -/

/-- **A way through a run**: its outcome, what it shows and what it adds to the diagnostics. -/
inductive Goes (budget : Nat) (source : String) (sink : Diagnostics) : Outcome → List Event → List Diagnostic → Prop
  | unparsed {err} : Expr.ofTokens budget (Scan.ofText source).tokens = .error err →
      Goes budget source sink .rejected [.scanned (Scan.ofText source).tokens] ((Scan.ofText source).diagnostics ++ [.parse err])
  | withheld {e} : Expr.ofTokens budget (Scan.ofText source).tokens = .ok e →
      (sink.hadError = true ∨ (Scan.ofText source).errors ≠ []) →
      Goes budget source sink .rejected [.scanned (Scan.ofText source).tokens] (Scan.ofText source).diagnostics
  | yields {e v} : Expr.ofTokens budget (Scan.ofText source).tokens = .ok e → sink.hadError = false →
      (Scan.ofText source).errors = [] → e.evaluate = .ok v →
      Goes budget source sink (.value v) [.scanned (Scan.ofText source).tokens, .parsed e] []
  | fails {e err} : Expr.ofTokens budget (Scan.ofText source).tokens = .ok e → sink.hadError = false →
      (Scan.ofText source).errors = [] → e.evaluate = .error (.failed err) →
      Goes budget source sink .rejected [.scanned (Scan.ofText source).tokens, .parsed e] [.runtime err]

section
variable {budget : Nat} {source : String} {sink sink' : Diagnostics} {outcome : Outcome} {events : List Event}
  {new : List Diagnostic}

theorem hadError_reportAll_scan : (sink.reportAll (Scan.ofText source).diagnostics).hadError = false ↔
    sink.hadError = false ∧ (Scan.ofText source).errors = [] := by
  rw [Diagnostics.hadError_reportAll, Scan.any_isStatic_diagnostics]
  simp

theorem reportAll_of_errors_eq_nil (h : (Scan.ofText source).errors = []) :
    sink.reportAll (Scan.ofText source).diagnostics = sink := by
  simp [Diagnostics.reportAll, Scan.diagnostics, h]

theorem exists_goes (budget : Nat) (source : String) (sink : Diagnostics) :
    ∃ outcome events new, Goes budget source sink outcome events new := by
  cases hparse : Expr.ofTokens budget (Scan.ofText source).tokens with
  | error err => exact ⟨_, _, _, .unparsed hparse⟩
  | ok e =>
    by_cases hstatic : sink.hadError = true ∨ (Scan.ofText source).errors ≠ []
    · exact ⟨_, _, _, .withheld hparse hstatic⟩
    · obtain ⟨hsink, herrors⟩ := not_or.1 hstatic
      have hsink := Bool.eq_false_iff.2 hsink
      have herrors := not_not.1 herrors
      cases heval : e.evaluate with
      | ok v => exact ⟨_, _, _, .yields hparse hsink herrors heval⟩
      | error stop =>
        cases stop with
        | failed err => exact ⟨_, _, _, .fails hparse hsink herrors heval⟩
        | misused m => exact absurd heval (e.evaluate_ne_misused m)

theorem Goes.ofText_eq (h : Goes budget source sink outcome events new) :
    ofText budget source sink = ⟨outcome, events, sink.reportAll new⟩ := by
  cases h with
  | unparsed hparse =>
    simp only [ofText, ofTokens, hparse, Diagnostics.report, Diagnostics.reportAll, List.append_assoc]
  | withheld hparse hstatic =>
    have herror : (sink.reportAll (Scan.ofText source).diagnostics).hadError = true := by
      rw [← Bool.not_eq_false, hadError_reportAll_scan]
      rintro ⟨hsink, herrors⟩
      rcases hstatic with h | h
      · rw [hsink] at h; cases h
      · exact h herrors
    simp only [ofText, ofTokens, hparse, herror, if_true]
  | yields hparse hsink herrors heval =>
    simp only [ofText, ofTokens, hparse, reportAll_of_errors_eq_nil herrors, hsink, Bool.false_eq_true, if_false, ofExpr, heval]
    rw [Diagnostics.reportAll, List.append_nil]
  | fails hparse hsink herrors heval =>
    simp only [ofText, ofTokens, hparse, reportAll_of_errors_eq_nil herrors, hsink, Bool.false_eq_true, if_false, ofExpr, heval]
    rfl

/-- A run goes the same way into any sink without a static error. -/
theorem Goes.into (h : Goes budget source sink outcome events new) (hs : sink.hadError = false)
    (hs' : sink'.hadError = false) : Goes budget source sink' outcome events new := by
  cases h with
  | unparsed hparse => exact .unparsed hparse
  | withheld hparse hstatic => exact .withheld hparse (.inr (hstatic.resolve_left (by simp [hs])))
  | yields hparse _ herrors heval => exact .yields hparse hs' herrors heval
  | fails hparse _ herrors heval => exact .fails hparse hs' herrors heval

theorem runtime_notMem_diagnostics (err : RuntimeError) (s : Scan) : Diagnostic.runtime err ∉ s.diagnostics := by
  simp [Scan.diagnostics]

/-- What is added: the errors of the scan and at most one more of the order of tokens, or one of the evaluation. -/
theorem Goes.new_eq (h : Goes budget source sink outcome events new) :
    (∃ errs : List ParseError, errs.length ≤ 1 ∧ new = (Scan.ofText source).diagnostics ++ errs.map Diagnostic.parse) ∨
      ∃ err, new = [.runtime err] := by
  cases h with
  | @unparsed err _ => exact .inl ⟨[err], Nat.le_refl 1, rfl⟩
  | withheld => exact .inl ⟨[], Nat.zero_le 1, (List.append_nil _).symm⟩
  | yields _ _ herrors _ => exact .inl ⟨[], Nat.zero_le 1, by simp [Scan.diagnostics, herrors]⟩
  | @fails _ err => exact .inr ⟨err, rfl⟩

/-- What is shown: the tokens, and behind them the tree if it is evaluated. -/
theorem Goes.events_eq (h : Goes budget source sink outcome events new) :
    (events = [.scanned (Scan.ofText source).tokens] ∧ outcome = .rejected ∧ ∀ err, Diagnostic.runtime err ∉ new) ∨
      ∃ e, events = [.scanned (Scan.ofText source).tokens, .parsed e] ∧
        Expr.ofTokens budget (Scan.ofText source).tokens = .ok e ∧ sink.hadError = false ∧
        ((∃ v, e.evaluate = .ok v ∧ outcome = .value v ∧ new = []) ∨
          ∃ err, e.evaluate = .error (.failed err) ∧ outcome = .rejected ∧ new = [.runtime err]) := by
  cases h with
  | unparsed => exact .inl ⟨rfl, rfl, fun err => by simp [runtime_notMem_diagnostics]⟩
  | withheld => exact .inl ⟨rfl, rfl, fun err => runtime_notMem_diagnostics err _⟩
  | @yields e v hparse hsink _ heval => exact .inr ⟨e, rfl, hparse, hsink, .inl ⟨v, heval, rfl, rfl⟩⟩
  | @fails e err hparse hsink _ heval => exact .inr ⟨e, rfl, hparse, hsink, .inr ⟨err, heval, rfl, rfl⟩⟩

theorem Goes.new_ne_nil (h : Goes budget source sink outcome events new) (hs : sink.hadError = false)
    (hv : outcome.value? = none) : new ≠ [] := by
  cases h with
  | unparsed => simp
  | withheld _ hstatic => simpa [Scan.diagnostics, hs] using hstatic
  | yields => cases hv
  | fails => simp

end

/-- **The outcome of a run and what it reports.**  What was reported before stays, and behind it stand the faults of the text
in their order with at most one error of the order of tokens, or one error of the evaluation alone.  A value comes with no
report.  Static errors from before only keep the text from being evaluated: without one the run is that into an empty sink,
and either yields a value or says why not.  The tokens are shown first, and the tree exactly when it is evaluated. -/
theorem ofText_stages (budget : Nat) (source : String) (sink : Diagnostics) :
    ∃ outcome shown new, ofText budget source sink =
        ⟨outcome, .scanned (Scan.ofText source).tokens :: shown, ⟨sink.entries ++ new⟩⟩ ∧
      -- what is added
      ((∃ errs : List ParseError, errs.length ≤ 1 ∧ new = (Scan.ofText source).diagnostics ++ errs.map Diagnostic.parse) ∨
        ∃ err, new = [.runtime err]) ∧
      (∀ ss, Segment.Tokenizes source.toList ss →
        (Scan.ofText source).errors.map LexError.cause = ss.filterMap Segment.fault?) ∧
      -- the outcome
      (∀ m, outcome ≠ .aborted m) ∧
      (∀ v, outcome = .value v → new = [] ∧ sink.hadError = false) ∧
      (∀ err, Diagnostic.runtime err ∈ new → sink.hadError = false) ∧
      (sink.hadError = false → (outcome.value? = none → new ≠ []) ∧
        ofText budget source .empty = ⟨outcome, .scanned (Scan.ofText source).tokens :: shown, ⟨new⟩⟩) ∧
      -- what is shown
      ((shown = [] ∧ outcome = .rejected ∧ ∀ err, Diagnostic.runtime err ∉ new) ∨
        ∃ e, shown = [.parsed e] ∧ Expr.ofTokens budget (Scan.ofText source).tokens = .ok e ∧
          ((∃ v, e.evaluate = .ok v ∧ outcome = .value v) ∨ ∃ err, e.evaluate = .error (.failed err) ∧ new = [.runtime err])) := by
  obtain ⟨outcome, events, new, h⟩ := exists_goes budget source sink
  have herrors : ∀ ss, Segment.Tokenizes source.toList ss →
      (Scan.ofText source).errors.map LexError.cause = ss.filterMap Segment.fault? := by
    intro ss hss
    rw [hss.unique (Segment.tokenizes_split _)]
    exact Scan.ofSegments_errors 1 _
  have hempty : sink.hadError = false → (outcome.value? = none → new ≠ []) ∧
      ofText budget source .empty = ⟨outcome, events, ⟨new⟩⟩ := by
    intro hs
    have hfresh : Goes budget source .empty outcome events new := h.into hs rfl
    exact ⟨h.new_ne_nil hs, hfresh.ofText_eq⟩
  rcases h.events_eq with ⟨rfl, rfl, hno⟩ | ⟨e, rfl, hparse, hsink, hend⟩
  · exact ⟨_, [], new, h.ofText_eq, h.new_eq, herrors, fun _ hm => (by cases hm), fun _ hv => (by cases hv),
      fun err herr => absurd herr (hno err), hempty, .inl ⟨rfl, rfl, hno⟩⟩
  · refine ⟨outcome, [.parsed e], new, h.ofText_eq, h.new_eq, herrors, ?_, ?_, fun _ _ => hsink, hempty, .inr ⟨e, rfl, hparse, ?_⟩⟩
    · rintro m rfl
      rcases hend with ⟨v, -, hv, -⟩ | ⟨err, -, herr, -⟩
      · cases hv
      · cases herr
    · rintro v rfl
      rcases hend with ⟨v', -, -, hnew⟩ | ⟨err, -, herr, -⟩
      · exact ⟨hnew, hsink⟩
      · cases herr
    · exact hend.imp (fun ⟨v, hv, ho, _⟩ => ⟨v, hv, ho⟩) (fun ⟨err, he, _, hn⟩ => ⟨err, he, hn⟩)

end Run
end LoxExpr
