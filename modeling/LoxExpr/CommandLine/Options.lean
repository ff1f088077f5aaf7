import LoxExpr.Parsing
/-!
# The arguments of the command

Arguments are read from left to right.  One that begins with `-` is an option, the lone `-` excepted; after the first `--`
none is.  Each option may be given once, and one argument that is no option names the script.  `--version` and `--help` are
answered as soon as they are reached, whatever follows; anything wrong before them is a usage error.
-/
namespace LoxExpr
namespace CommandLine

/-! ## Single arguments -/

/-- The shape of an argument. -/
inductive Arg where
  | separator
  | long (name : String) (value : Option String)
  | short (flags : List Char)
  | operand (text : String)
deriving DecidableEq

/-- A long option may carry its value behind the first `=`. -/
def Arg.ofLong (body : List Char) : Arg :=
  let name := String.ofList (body.takeWhile (· ≠ '='))
  match body.dropWhile (· ≠ '=') with
  | _ :: value => .long name (some (String.ofList value))
  | [] => .long name none

def Arg.ofText (text : String) : Arg :=
  match text.toList with
  | ['-', '-'] => .separator
  | '-' :: '-' :: body => .ofLong body
  | '-' :: c :: cs => .short (c :: cs)
  | _ => .operand text

/-- A budget is written in digits, after an optional plus sign, and fits in 64 bits. -/
def budgetOf? (text : String) : Option Nat :=
  let digits := match text.toList with
    | '+' :: cs => cs
    | cs => cs
  if digits ≠ [] ∧ digits.all Char.isDigit then
    let n := Nat.ofDigitChars 10 digits 0
    if n < UInt64.size then some n else none
  else none

/-! ## The whole command line -/

/-- What a run of the command shows, and how deep it parses. -/
structure Options where
  tokens : Bool
  ast : Bool
  budget : Nat
deriving DecidableEq

/-- What the command is asked for.  Without a script it prompts. -/
inductive Request where
  | start (script : Option String) (options : Options)
  | version
  | help
deriving DecidableEq

/-- What is wrong with the arguments. -/
inductive UsageError where
  | unknown (arg : String)
  | repeated (option : String)
  | unexpectedValue (option : String)
  | missingValue (option : String)
  | invalidValue (value : String)
deriving DecidableEq

/-- What has been given so far. -/
structure Given where
  script : Option String
  tokens : Bool
  ast : Bool
  budget : Option Nat
deriving DecidableEq

namespace Given

def nothing : Given := ⟨none, false, false, none⟩

def request (g : Given) : Request :=
  .start g.script ⟨g.tokens, g.ast, g.budget.getD Parsing.defaultBudget⟩

/-- The script is named once and not by the empty text. -/
def withScript (g : Given) (text : String) : Except UsageError Given :=
  if g.script.isSome then .error (.unknown text)
  else if text = "" then .error (.invalidValue text)
  else .ok { g with script := some text }

def withBudget (g : Given) (text : String) : Except UsageError Given :=
  match budgetOf? text with
  | none => .error (.invalidValue text)
  | some n => if g.budget.isSome then .error (.repeated "max-depth") else .ok { g with budget := some n }

/-- A flag: given once and without a value. -/
def withFlag (g : Given) (name : String) (value : Option String) : Except UsageError Given :=
  if value.isSome then .error (.unexpectedValue name)
  else if name = "tokens" then
    if g.tokens then .error (.repeated name) else .ok { g with tokens := true }
  else if name = "ast" then
    if g.ast then .error (.repeated name) else .ok { g with ast := true }
  else .error (.unknown name)

end Given

/-- The operands behind a `--`. -/
def readOperands (g : Given) : List String → Except UsageError Request
  | [] => .ok g.request
  | text :: rest => do readOperands (← g.withScript text) rest

/-- A flag among short ones that is answered at once; there are no others. -/
def readShort (flags : List Char) : Except UsageError Request :=
  match flags with
  | 'V' :: _ => .ok .version
  | 'h' :: _ => .ok .help
  | _ => .error (.unknown (String.ofList flags))

/-- Reads the arguments that are left, `g` being given by those before. -/
def readArgs (g : Given) : List String → Except UsageError Request
  | [] => .ok g.request
  | arg :: rest =>
    match Arg.ofText arg with
    | .separator => readOperands g rest
    | .short flags => readShort flags
    | .operand text => do readArgs (← g.withScript text) rest
    | .long "version" none => .ok .version
    | .long "help" none => .ok .help
    | .long "max-depth" (some text) => do readArgs (← g.withBudget text) rest
    | .long "max-depth" none =>
      match rest with
      | [] => .error (.missingValue "max-depth")
      | text :: rest' =>
        match Arg.ofText text with
        | .operand _ => do readArgs (← g.withBudget text) rest'
        | _ => .error (.missingValue "max-depth")
    | .long name value => do readArgs (← g.withFlag name value) rest

/-- **What a command line asks for.** -/
def Request.ofArgs (args : List String) : Except UsageError Request := readArgs .nothing args

/-- What `--version` is answered. -/
def versionText : String := "treelox 0.1.0\n"

end CommandLine
end LoxExpr
