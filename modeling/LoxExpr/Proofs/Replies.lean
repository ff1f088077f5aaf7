import LoxExpr.Proofs.Arguments
import LoxExpr.Proofs.Stages
/-!
# Replies: one text, however it is run

A text can be run for its value alone (`valueOf`), with a budget into diagnostics that are looked at afterwards, and as a script
of the command, which only has a status and two outputs to say it with.  Each finds out for itself whether all went well: from
the outcome, from the emptiness of the diagnostics, from two flags that are asked in order.

Into empty diagnostics a run has one of three ends (`Run.ofText_empty`): a value and no report; errors in the text and nothing
evaluated; one error of the evaluation.  So all of them say the same (`entryPoints_agree`).
-/
namespace LoxExpr

/-! ## The ends of a run -/

/-- **A run into empty diagnostics** has a value, or is stopped by the text, or fails in its evaluation. -/
theorem Run.ofText_empty (budget : Nat) (source : String) :
    (∃ e v, Expr.ofTokens budget (Scan.ofText source).tokens = .ok e ∧
      ofText budget source .empty = ⟨.value v, [.scanned (Scan.ofText source).tokens, .parsed e], .empty⟩) ∨
    (∃ ds, ds.hadError = true ∧ ofText budget source .empty = ⟨.rejected, [.scanned (Scan.ofText source).tokens], ds⟩) ∨
    ∃ e err, Expr.ofTokens budget (Scan.ofText source).tokens = .ok e ∧
      ofText budget source .empty = ⟨.rejected, [.scanned (Scan.ofText source).tokens, .parsed e], ⟨[.runtime err]⟩⟩ := by
  obtain ⟨outcome, events, new, h⟩ := exists_goes budget source .empty
  have heq := h.ofText_eq
  cases h with
  | unparsed _ => exact .inr (.inl ⟨_, by simp [Diagnostics.hadError, Diagnostic.isStatic], heq⟩)
  | withheld _ hstatic =>
    -- the flag was set by the scan, and the parser reported nothing
    refine .inr (.inl ⟨_, ?_, heq⟩)
    rw [Diagnostics.hadError_reportAll, Scan.any_isStatic_diagnostics]
    simpa [Diagnostics.hadError, Diagnostics.empty] using hstatic
  | yields hparse => exact .inl ⟨_, _, hparse, heq⟩
  | fails hparse => exact .inr (.inr ⟨_, _, hparse, heq⟩)

theorem Diagnostics.isEmpty_of_hadError {ds : Diagnostics} (h : ds.hadError = true) : ds.isEmpty = false :=
  ds.isEmpty_eq_false_iff.2 (.inl h)

/-! ## The value of a text -/

theorem valueOf_eq_ok_iff (source : String) (v : Value) :
    valueOf source = .ok v ↔ (Run.ofText Parsing.defaultBudget source .empty).outcome = .value v := by
  rcases Run.ofText_empty Parsing.defaultBudget source with ⟨e, w, -, h⟩ | ⟨ds, -, h⟩ | ⟨e, err, -, h⟩
  · simp [valueOf, h]
  · simp [valueOf, h]
  · simp [valueOf, h]

theorem valueOf_eq_error_iff (source : String) (ds : Diagnostics) :
    valueOf source = .error ds ↔ (Run.ofText Parsing.defaultBudget source .empty).outcome.value? = none ∧
      ds = (Run.ofText Parsing.defaultBudget source .empty).diagnostics := by
  rcases Run.ofText_empty Parsing.defaultBudget source with ⟨e, w, -, h⟩ | ⟨ds, -, h⟩ | ⟨e, err, -, h⟩
  · simp [valueOf, h, Outcome.value?]
  · simp [valueOf, h, Outcome.value?, eq_comm]
  · simp [valueOf, h, Outcome.value?, eq_comm]

theorem isEmpty_of_valueOf_eq_error {source : String} {ds : Diagnostics} (h : valueOf source = .error ds) :
    ds.isEmpty = false := by
  obtain ⟨hvalue, rfl⟩ := (valueOf_eq_error_iff source ds).1 h
  rcases Run.ofText_empty Parsing.defaultBudget source with ⟨e, w, -, h⟩ | ⟨ds, hstatic, h⟩ | ⟨e, err, -, h⟩
  · rw [h] at hvalue
    cases hvalue
  · rw [h]
    exact Diagnostics.isEmpty_of_hadError hstatic
  · rw [h]
    rfl

namespace CommandLine

/-! ## The answer to a text -/

/-- Lines that each end with a line end are the same lines with line ends between them and one at the end. -/
theorem join_lines {lines : List String} (h : lines ≠ []) :
    String.join (lines.map (· ++ "\n")) = "\n".intercalate lines ++ "\n" := by
  induction lines with
  | nil => exact absurd rfl h
  | cons line lines ih =>
    cases lines with
    | nil => simp
    | cons next lines =>
      rw [List.map_cons, String.join_cons, ih (List.cons_ne_nil _ _), String.intercalate_cons_cons]
      simp only [String.append_assoc]

theorem join_reports {ds : Diagnostics} (h : ds.isEmpty = false) :
    String.join (ds.entries.map (fun d => d.text ++ "\n")) = ds.text ++ "\n" := by
  have hne : ds.entries.map Diagnostic.text ≠ [] := by
    simpa [Diagnostics.isEmpty] using h
  rw [Diagnostics.text, ← join_lines hne, List.map_map]
  rfl

theorem respond_of_run {o : Options} {source : String} {run : Run} (h : Run.ofText o.budget source .empty = run) :
    respond o source = ⟨exitStatus run, String.join (run.events.map o.show) ++ outcomeText run.outcome,
      String.join (run.diagnostics.entries.map (fun d => d.text ++ "\n"))⟩ := by
  subst h
  rfl

section
variable {o : Options} {source : String} {tokens : List Token} {e : Expr} {v : Value} {ds : Diagnostics} {err : RuntimeError}

theorem respond_of_value (h : Run.ofText o.budget source .empty = ⟨.value v, [.scanned tokens, .parsed e], .empty⟩) :
    respond o source = ⟨0, o.show (.scanned tokens) ++ o.show (.parsed e) ++ (v.text ++ "\n"), ""⟩ := by
  rw [respond_of_run h]
  simp only [exitStatus, outcomeText, Diagnostics.hadError_empty, Diagnostics.hadRuntimeError_empty]
  simp [Diagnostics.empty]

theorem respond_of_hadError (hds : ds.hadError = true)
    (h : Run.ofText o.budget source .empty = ⟨.rejected, [.scanned tokens], ds⟩) :
    respond o source = ⟨65, o.show (.scanned tokens), ds.text ++ "\n"⟩ := by
  rw [respond_of_run h, ← join_reports (Diagnostics.isEmpty_of_hadError hds)]
  simp [exitStatus, outcomeText, hds]

theorem respond_of_runtimeError
    (h : Run.ofText o.budget source .empty = ⟨.rejected, [.scanned tokens, .parsed e], ⟨[.runtime err]⟩⟩) :
    respond o source = ⟨70, o.show (.scanned tokens) ++ o.show (.parsed e), (⟨[.runtime err]⟩ : Diagnostics).text ++ "\n"⟩ := by
  rw [respond_of_run h, ← join_reports rfl]
  simp [exitStatus, outcomeText, Diagnostics.hadError, Diagnostics.hadRuntimeError, Diagnostic.isStatic, Diagnostic.isRuntime]

end

/-- **The reply to a text**: the status says what came of its run into empty diagnostics; on the one side stands all that was
reported, on the other what was asked for, as far as there was something to show, and the value. -/
structure Reply.Answers (o : Options) (source : String) (r : Reply) : Prop where
  status_value : ∀ v, (Run.ofText o.budget source .empty).outcome = .value v → r.status = 0
  status_static : (Run.ofText o.budget source .empty).diagnostics.hadError = true → r.status = 65
  status_failed : (Run.ofText o.budget source .empty).outcome.value? = none →
    (Run.ofText o.budget source .empty).diagnostics.hadError = false → r.status = 70
  stderr_well : r.status = 0 → r.stderr = ""
  stderr_ill : r.status ≠ 0 → r.stderr = (Run.ofText o.budget source .empty).diagnostics.text ++ "\n"
  stdout : ∃ tree value, (r.status ≠ 65 → ∃ e, Expr.ofTokens o.budget (Scan.ofText source).tokens = .ok e ∧ tree = e.prefixText) ∧
    (r.status = 0 → ∃ v, (Run.ofText o.budget source .empty).outcome = .value v ∧ value = v.text) ∧
    r.stdout = (if o.tokens = true then String.join ((Scan.ofText source).tokens.map fun t => t.text ++ "\n") else "") ++
      (if o.ast = true ∧ r.status ≠ 65 then tree ++ "\n" else "") ++ (if r.status = 0 then value ++ "\n" else "")

theorem respond_answers (o : Options) (source : String) : (respond o source).Answers o source := by
  rcases Run.ofText_empty o.budget source with ⟨e, v, hparse, h⟩ | ⟨ds, hstatic, h⟩ | ⟨e, err, hparse, h⟩
  · rw [respond_of_value h]
    constructor
    case status_value => simp
    case status_static => simp [h]
    case status_failed => simp [h, Outcome.value?]
    case stderr_well => simp
    case stderr_ill => simp
    case stdout => exact ⟨_, _, fun _ => ⟨e, hparse, rfl⟩, fun _ => ⟨v, by rw [h], rfl⟩, by simp [Options.show]⟩
  · rw [respond_of_hadError hstatic h]
    constructor
    case status_value => simp [h]
    case status_static => simp
    case status_failed => simp [h, hstatic]
    case stderr_well => simp
    case stderr_ill => simp [h]
    case stdout => exact ⟨"", "", by simp, by simp, by simp [Options.show]⟩
  · rw [respond_of_runtimeError h]
    constructor
    case status_value => simp [h]
    case status_static => simp [h, Diagnostics.hadError, Diagnostic.isStatic]
    case status_failed => simp
    case stderr_well => simp
    case stderr_ill => simp [h]
    case stdout => exact ⟨_, "", fun _ => ⟨e, hparse, rfl⟩, by simp, by simp [Options.show]⟩

/-! ## Scripts -/

theorem run_script {args : List String} {path : String} {o : Options} {folder : Folder} {source : String}
    (hargs : Request.ofArgs args = .ok (.start (some path) o)) (hread : folder.read path = .ok (encode source))
    (stdin : List UInt8) : run args folder stdin = respond o source := by
  have htext : decode? (encode source) = some source := decode?_eq_some_iff.2 rfl
  simp only [run, hargs, hread, respondScript, bind, Except.bind, htext, Option.elim]

/-- **All ways to run a text agree.**  Its value is asked for with success exactly if its run into empty diagnostics has that
value, and otherwise what that run reports is given, which is never nothing.  A script with this text and any options has the
status, the reports and the printed lines that the run with its budget stands for (`Reply.Answers`); under the default budget
it ends well exactly if the text has a value.  Any options can be asked for. -/
theorem entryPoints_agree (source : String) :
    (∀ v, valueOf source = .ok v ↔ (Run.ofText Parsing.defaultBudget source .empty).outcome = .value v) ∧
    (∀ ds, valueOf source = .error ds ↔ (Run.ofText Parsing.defaultBudget source .empty).outcome.value? = none ∧
      ds = (Run.ofText Parsing.defaultBudget source .empty).diagnostics) ∧
    (∀ ds, valueOf source = .error ds → ds.isEmpty = false) ∧
    (∀ args path o folder stdin, Request.ofArgs args = .ok (.start (some path) o) → folder.read path = .ok (encode source) →
      (run args folder stdin).Answers o source ∧
      (o.budget = Parsing.defaultBudget → ((run args folder stdin).status = 0 ↔ ∃ v, valueOf source = .ok v))) ∧
    (∀ (o : Options) path, o.budget < UInt64.size → path ≠ "" → ∃ args, Request.ofArgs args = .ok (.start (some path) o)) := by
  refine ⟨valueOf_eq_ok_iff source, valueOf_eq_error_iff source, fun ds => isEmpty_of_valueOf_eq_error, ?_,
    fun o path ho hpath => ⟨_, ofArgs_scriptArguments ho hpath⟩⟩
  intro args path o folder stdin hargs hread
  rw [run_script hargs hread]
  have hanswers := respond_answers o source
  refine ⟨hanswers, fun hbudget => ?_⟩
  -- a status of 0 belongs to the value that is printed
  simp only [valueOf_eq_ok_iff, ← hbudget]
  constructor
  · intro hstatus
    obtain ⟨tree, value, -, hvalue, -⟩ := hanswers.stdout
    obtain ⟨v, hv, -⟩ := hvalue hstatus
    exact ⟨v, hv⟩
  · rintro ⟨v, hv⟩
    exact hanswers.status_value v hv

/-- A folder with one script, which scans and parses but has no value. -/
def scriptFolder : Folder := [(["opposite"], .file (encode "-nil"))]

/-- The script fails in its evaluation, so its tree is shown when asked for. -/
theorem run_oppositeOfNil :
    Request.ofArgs ["--ast", "opposite"] = .ok (.start (some "opposite") ⟨false, true, 256⟩) ∧
    scriptFolder.read "opposite" = .ok (encode "-nil") ∧
    (run ["--ast", "opposite"] scriptFolder []).Answers ⟨false, true, 256⟩ "-nil" ∧
    (run ["--ast", "opposite"] scriptFolder []).status = 70 := by
  have hargs : Request.ofArgs ["--ast", "opposite"] = .ok (.start (some "opposite") ⟨false, true, 256⟩) := by decide
  have hread : scriptFolder.read "opposite" = .ok (encode "-nil") := rfl
  have hends : Segment.EndsSymbol ['n', 'i', 'l'] := Segment.endsSymbol_cons (by decide)
  have hsign : Scan.ofText "-nil" = Scan.behind [Symbol.token .minus 1] (Scan.ofChars 1 ['n', 'i', 'l']) :=
    Scan.ofChars_symbol .minus hends 1
  have hword : Scan.ofChars 1 ['n', 'i', 'l'] = Scan.behind [⟨.keyword .nilWord, "nil", none, 1⟩] (Scan.ofChars 1 []) :=
    Scan.ofChars_keyword .nilWord Segment.endsPiece_nil 1
  have hparse : Expr.ofTokens 256 [Symbol.token .minus 1, ⟨.keyword .nilWord, "nil", none, 1⟩, Token.eof 1] =
      .ok (.unaryAt .negate (.literal .nil) 1) := by cbv
  have hrun : (Run.ofText 256 "-nil" .empty).outcome = .rejected ∧
      (Run.ofText 256 "-nil" .empty).diagnostics = ⟨[.runtime ⟨.operandMustBeNumber, Symbol.token .minus 1⟩]⟩ := by
    rw [Run.ofText, hsign, hword, Scan.ofChars_nil]
    simp only [Scan.behind, List.singleton_append, Run.ofTokens, hparse]
    exact ⟨rfl, rfl⟩
  obtain ⟨hanswers, -⟩ := (entryPoints_agree "-nil").2.2.2.1 _ _ _ _ [] hargs hread
  refine ⟨hargs, hread, hanswers, hanswers.status_failed ?_ ?_⟩
  · rw [hrun.1]
    rfl
  · rw [hrun.2]
    rfl

end CommandLine
end LoxExpr
