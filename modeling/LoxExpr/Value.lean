import LoxExpr.Number.Text
/-!
# Values

What literals stand for and what evaluation yields: numbers, strings, booleans and `nil`.  Nothing is ever converted from one
sort to another.
-/
namespace LoxExpr

inductive Value where
  | number (n : Number)
  | string (s : String)
  | bool (b : Bool)
  | nil
deriving DecidableEq, Inhabited

namespace Value

/-- Everything but `nil` and `false` counts as true, zero and the empty string included. -/
def isTruthy : Value → Bool
  | nil => false
  | bool b => b
  | _ => true

def asNumber? : Value → Option Number
  | number n => some n
  | _ => none

/-- **Equality as the language sees it**: values of two sorts differ, and numbers compare as doubles do. -/
def equals : Value → Value → Bool
  | number x, number y => x.equals y
  | string x, string y => x == y
  | bool x, bool y => x == y
  | nil, nil => true
  | _, _ => false

/-- The text of a value; a string is its bare contents. -/
def text : Value → String
  | number n => n.text
  | string s => s
  | bool true => "true"
  | bool false => "false"
  | nil => "nil"

end Value
end LoxExpr
