import LoxExpr.Scan
import LoxExpr.Parsing
import LoxExpr.Evaluation
/-!
# Runs: a text from its characters to its value

A run scans a text, parses it and, unless something static was reported, evaluates it.  What is wrong is added to the
diagnostics handed in; a static error among those, even an old one, keeps every later text from being evaluated.  A text with
bad characters is parsed all the same, so that one error of the token order is reported after them.

The run also records what there was to look at on the way: the tokens, and the tree about to be evaluated.
-/
namespace LoxExpr

/-- What an onlooker is shown. -/
inductive Event where
  | scanned (tokens : List Token)
  | parsed (e : Expr)
deriving DecidableEq

inductive Outcome where
  | value (v : Value)
  | rejected
  | aborted (m : Misuse)
deriving DecidableEq

def Outcome.value? : Outcome → Option Value
  | value v => some v
  | _ => none

/-- **A run**: its outcome, what was shown in order, and the diagnostics afterwards. -/
structure Run where
  outcome : Outcome
  events : List Event
  diagnostics : Diagnostics
deriving DecidableEq

namespace Run

/-- The run of a tree that is about to be evaluated. -/
def ofExpr (e : Expr) (sink : Diagnostics) : Run :=
  match e.evaluate with
  | .ok v => ⟨.value v, [.parsed e], sink⟩
  | .error (.failed err) => ⟨.rejected, [.parsed e], sink.report (.runtime err)⟩
  | .error (.misused m) => ⟨.aborted m, [.parsed e], sink⟩

/-- The run of a list of tokens. -/
def ofTokens (budget : Nat) (tokens : List Token) (sink : Diagnostics) : Run :=
  match Expr.ofTokens budget tokens with
  | .error e => ⟨.rejected, [], sink.report (.parse e)⟩
  | .ok e => if sink.hadError then ⟨.rejected, [], sink⟩ else ofExpr e sink

/-- **The run of a text.** -/
def ofText (budget : Nat) (source : String) (sink : Diagnostics) : Run :=
  let scan := Scan.ofText source
  let run := ofTokens budget scan.tokens (sink.reportAll scan.diagnostics)
  { run with events := .scanned scan.tokens :: run.events }

end Run

/-- The value of a text under the default budget, or all that is wrong with it. -/
def valueOf (source : String) : Except Diagnostics Value :=
  let run := Run.ofText Parsing.defaultBudget source .empty
  match run.outcome with
  | .value v => if run.diagnostics.isEmpty then .ok v else .error run.diagnostics
  | _ => .error run.diagnostics

/-! ## Histories -/

/-- What can be done to shared diagnostics. -/
inductive Step where
  | report (d : Diagnostic)
  | scan (source : String)
  | run (budget : Nat) (source : String)
deriving DecidableEq

/-- What a step answers. -/
inductive Answer where
  | nothing
  | tokens (ts : List Token)
  | outcome (o : Outcome)
deriving DecidableEq

namespace Step

/-- The answer of a step, and the diagnostics after it. -/
def perform (sink : Diagnostics) : Step → Answer × Diagnostics
  | report d => (.nothing, sink.report d)
  | scan source =>
    let scan := Scan.ofText source
    (.tokens scan.tokens, sink.reportAll scan.diagnostics)
  | run budget source =>
    let run := Run.ofText budget source sink
    (.outcome run.outcome, run.diagnostics)

end Step

/-- The diagnostics after a list of steps. -/
def Diagnostics.after (sink : Diagnostics) (steps : List Step) : Diagnostics :=
  steps.foldl (fun sink step => (step.perform sink).2) sink

end LoxExpr
