import LoxExpr.Proofs.Stages
/-!
# Histories: diagnostics that many steps share

Diagnostics can be handed from one step to the next, errors being reported and texts being scanned and run in any order.  A
step only adds to what is there (`Step.perform_extends`), so nothing that was true of the flags becomes false, however many
steps follow (`Diagnostics.after_extends`).  That is why a static error, once it is recorded, is felt by every later run: such
a run never comes to an evaluation (`Run.ofText_of_hadError`).
-/
namespace LoxExpr
namespace Diagnostics

/-- **Later diagnostics**: what was reported is still there, in front. -/
def Extends (sink later : Diagnostics) : Prop := sink.entries <+: later.entries

section
variable {sink later last : Diagnostics}

theorem Extends.refl (sink : Diagnostics) : Extends sink sink := List.prefix_refl _

theorem Extends.trans (h : Extends sink later) (h' : Extends later last) : Extends sink last := List.IsPrefix.trans h h'

theorem extends_reportAll (sink : Diagnostics) (new : List Diagnostic) : Extends sink (sink.reportAll new) :=
  List.prefix_append _ _

theorem Extends.hadError (h : Extends sink later) (hs : sink.hadError = true) : later.hadError = true := by
  obtain ⟨d, hd, hstatic⟩ := List.any_eq_true.1 hs
  exact List.any_eq_true.2 ⟨d, h.subset hd, hstatic⟩

theorem Extends.hadRuntimeError (h : Extends sink later) (hs : sink.hadRuntimeError = true) :
    later.hadRuntimeError = true := by
  obtain ⟨d, hd, hruntime⟩ := List.any_eq_true.1 hs
  exact List.any_eq_true.2 ⟨d, h.subset hd, hruntime⟩

end
end Diagnostics

/-- **A step only adds.** -/
theorem Step.perform_extends (sink : Diagnostics) (step : Step) : sink.Extends (step.perform sink).2 := by
  cases step with
  | report d => exact sink.extends_reportAll [d]
  | scan source => exact sink.extends_reportAll _
  | run budget source =>
    obtain ⟨outcome, events, new, h⟩ := Run.exists_goes budget source sink
    simp only [perform, h.ofText_eq]
    exact sink.extends_reportAll new

namespace Diagnostics

theorem after_append (sink : Diagnostics) (before steps : List Step) :
    sink.after (before ++ steps) = (sink.after before).after steps := List.foldl_append

/-- **Any number of steps only add.** -/
theorem after_extends (sink : Diagnostics) (steps : List Step) : sink.Extends (sink.after steps) := by
  induction steps generalizing sink with
  | nil => exact .refl sink
  | cons step steps ih => exact (step.perform_extends sink).trans (ih _)

end Diagnostics

/-- **A run after a static error** is not evaluated: it has no value, shows the tokens alone and reports what is wrong with its
own text at the most. -/
theorem Run.ofText_of_hadError {sink : Diagnostics} (h : sink.hadError = true) (budget : Nat) (source : String) :
    ∃ new, ofText budget source sink = ⟨.rejected, [.scanned (Scan.ofText source).tokens], sink.reportAll new⟩ ∧
      ∀ err, Diagnostic.runtime err ∉ new := by
  obtain ⟨outcome, events, new, hgoes⟩ := exists_goes budget source sink
  rcases hgoes.events_eq with ⟨rfl, rfl, hno⟩ | ⟨e, -, -, hsink, -⟩
  · exact ⟨new, hgoes.ofText_eq, hno⟩
  · rw [h] at hsink
    cases hsink

/-- **What holds of shared diagnostics all along.**  From one moment to any later one, what was reported stays in front and
unchanged, and no flag is cleared.  At each moment something was reported exactly when a flag is set.  From the moment when a
static error is recorded on, every run is rejected, shows no tree and adds no error of evaluation, whatever its text and its
budget and whatever was done in between. -/
theorem Diagnostics.after_history (sink : Diagnostics) :
    (∀ before later, (sink.after before).entries <+: (sink.after (before ++ later)).entries ∧
      ((sink.after before).hadError = true → (sink.after (before ++ later)).hadError = true) ∧
      ((sink.after before).hadRuntimeError = true → (sink.after (before ++ later)).hadRuntimeError = true)) ∧
    (∀ steps, (sink.after steps).isEmpty = false ↔
      (sink.after steps).hadError = true ∨ (sink.after steps).hadRuntimeError = true) ∧
    (∀ before between budget source, (sink.after before).hadError = true →
      ∃ new, (∀ err, Diagnostic.runtime err ∉ new) ∧
        (Step.run budget source).perform (sink.after (before ++ between)) =
          (.outcome .rejected, ⟨(sink.after (before ++ between)).entries ++ new⟩) ∧
        (Run.ofText budget source (sink.after (before ++ between))).events = [.scanned (Scan.ofText source).tokens]) := by
  have hextends : ∀ before later, Extends (sink.after before) (sink.after (before ++ later)) := fun before later => by
    rw [after_append]
    exact after_extends _ later
  refine ⟨?_, fun steps => isEmpty_eq_false_iff _, ?_⟩
  · intro before later
    have h := hextends before later
    exact ⟨h, h.hadError, h.hadRuntimeError⟩
  · intro before between budget source hstatic
    obtain ⟨new, hrun, hno⟩ := Run.ofText_of_hadError ((hextends before between).hadError hstatic) budget source
    refine ⟨new, hno, ?_, by rw [hrun]⟩
    simp only [Step.perform, hrun, reportAll]

end LoxExpr
