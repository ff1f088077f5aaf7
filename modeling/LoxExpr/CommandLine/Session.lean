import LoxExpr.CommandLine.Folder
import LoxExpr.CommandLine.Options
import LoxExpr.Run
/-!
# The command as a function

What the command writes and the status it ends with, as a function of its arguments, the folder it runs in and its standard
input.  A script is run once, and its status says what came of it.  At the prompt the lines of the input are read and answered
one after the other, each with diagnostics of its own.
-/
namespace LoxExpr
namespace CommandLine

/-- What the command writes to its two outputs, and its exit status. -/
structure Reply where
  status : Nat
  stdout : String
  stderr : String
deriving DecidableEq

/-! ## One text -/

/-- What an onlooker with these options prints of an event. -/
def Options.show (o : Options) : Event → String
  | .scanned tokens => if o.tokens then String.join (tokens.map (fun t => t.text ++ "\n")) else ""
  | .parsed e => if o.ast then e.prefixText ++ "\n" else ""

def outcomeText : Outcome → String
  | .value v => v.text ++ "\n"
  | _ => ""

/-- The status of a command that has misused its own operators. -/
def abortStatus : Nat := 101

/-- Status 65 is for an error in the text, 70 for one in its evaluation. -/
def exitStatus (run : Run) : Nat :=
  match run.outcome with
  | .aborted _ => abortStatus
  | _ => if run.diagnostics.hadError then 65 else if run.diagnostics.hadRuntimeError then 70 else 0

/-- **What one text is answered.** -/
def respond (o : Options) (source : String) : Reply :=
  let run := Run.ofText o.budget source .empty
  { status := exitStatus run
    stdout := String.join (run.events.map o.show) ++ outcomeText run.outcome
    stderr := String.join (run.diagnostics.entries.map (fun d => d.text ++ "\n")) }

/-! ## Scripts -/

/-- The text that bytes encode, if they are UTF-8. -/
def decode? (bytes : List UInt8) : Option String := String.fromUTF8? bytes.toByteArray

/-- **What a script is answered**, given its bytes or why they could not be read. -/
def respondScript (o : Options) (path : String) (bytes : Except ReadError (List UInt8)) : Reply :=
  let source := do (decode? (← bytes)).elim (.error .notText) .ok
  match source with
  | .ok source => respond o source
  | .error e => ⟨74, "", "Failed to read the script '" ++ path ++ "': " ++ e.reason ++ "\n"⟩

/-! ## The prompt -/

def promptText : String := "> "

def lineFeed : UInt8 := 10

def carriageReturn : UInt8 := 13

/-- A line without the carriage return that it may end with. -/
def dropReturn (line : List UInt8) : List UInt8 :=
  if line.getLast? = some carriageReturn then line.dropLast else line

/-- **The next line of an input**, and what is behind it.  A line ends at a line feed, which it loses together with a carriage
return directly before it; without a line feed it is all that is left, if anything is. -/
def nextLine? (bytes : List UInt8) : Option (List UInt8 × List UInt8) :=
  match bytes.dropWhile (· ≠ lineFeed) with
  | _ :: rest => some (dropReturn (bytes.takeWhile (· ≠ lineFeed)), rest)
  | [] => if bytes = [] then none else some (bytes, [])

/-- What the next line is answered, and what of the input is left; nothing at its end and at a line that is not text. -/
def nextReply? (o : Options) (stdin : List UInt8) : Option (Reply × List UInt8) := do
  let (line, rest) ← nextLine? stdin
  let source ← decode? line
  return (respond o source, rest)

theorem length_lt_of_nextLine? {bytes line rest : List UInt8} (h : nextLine? bytes = some (line, rest)) :
    rest.length < bytes.length := by
  have hlength := congrArg List.length (List.takeWhile_append_dropWhile (p := (· ≠ lineFeed)) (l := bytes))
  rw [List.length_append] at hlength
  unfold nextLine? at h
  split at h
  case h_1 heq =>
    cases h
    rw [heq, List.length_cons] at hlength
    omega
  case h_2 =>
    split at h
    · cases h
    · cases h
      exact List.length_pos_iff.2 (by assumption)

theorem length_lt_of_nextReply? {o : Options} {stdin rest : List UInt8} {reply : Reply}
    (h : nextReply? o stdin = some (reply, rest)) : rest.length < stdin.length := by
  simp only [nextReply?, Option.bind_eq_bind, Option.bind_eq_some_iff, Option.pure_def, Option.some.injEq, Prod.mk.injEq,
    Prod.exists] at h
  obtain ⟨line, rest', hline, source, -, -, rfl⟩ := h
  exact length_lt_of_nextLine? hline

/-- What is written first, and then what is written later, with the status at the end. -/
def Reply.followedBy (r later : Reply) : Reply := ⟨later.status, r.stdout ++ later.stdout, r.stderr ++ later.stderr⟩

/-- **A whole session at the prompt.**  It prompts, reads a line and answers it, again and again, until no line is left or one
is not text.  Only a misuse would end it with a line. -/
def session (o : Options) (stdin : List UInt8) : Reply :=
  match _ : nextReply? o stdin with
  | none => ⟨0, promptText, ""⟩
  | some (reply, rest) =>
    let shown : Reply := { reply with stdout := promptText ++ reply.stdout }
    if reply.status = abortStatus then shown else shown.followedBy (session o rest)
termination_by stdin.length
decreasing_by exact length_lt_of_nextReply? (by assumption)

/-! ## The command -/

/-- **The whole command.**  The page of `--help` and what is said of wrong arguments are not part of the reply: the library that
reads the arguments words and lays them out.  Their statuses are. -/
def run (args : List String) (folder : Folder) (stdin : List UInt8) : Reply :=
  match Request.ofArgs args with
  | .error _ => ⟨2, "", ""⟩
  | .ok .version => ⟨0, versionText, ""⟩
  | .ok .help => ⟨0, "", ""⟩
  | .ok (.start none o) => session o stdin
  | .ok (.start (some path) o) => respondScript o path (folder.read path)

end CommandLine
end LoxExpr
