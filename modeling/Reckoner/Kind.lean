import Reckoner.Text.Quoted

/-!
What an operator token stands for: built-in arithmetic, a control marker, or one of the three
markers of a call to a user function.
-/

namespace Reckoner

inductive Arithmetic where
  | add
  | sub
  | mul
  | div
  | pow
  | negate
  deriving DecidableEq, Repr

/-- Control markers: three that only make pending operators reduce, and the joining of two numbers
digit by digit. -/
inductive Control where
  | endExpr
  | openBracket
  | closeBracket
  | join
  deriving DecidableEq, Repr

/-- The kind of an operator token. Calls have three: one opens a call to the function registered under a
name, one closes it, and one separates its arguments. -/
inductive Kind where
  | arithmetic (op : Arithmetic)
  | control (marker : Control)
  | callStart (name : String)
  | callEnd
  | comma
  deriving DecidableEq, Repr

def Arithmetic.name : Arithmetic → String
  | add => "ADD"
  | sub => "SUB"
  | mul => "MUL"
  | div => "DIV"
  | pow => "POW"
  | negate => "UNARY_MINUS"

def Arithmetic.ordinal : Arithmetic → Nat
  | add => 1
  | sub => 2
  | mul => 3
  | div => 4
  | pow => 5
  | negate => 6

def Control.name : Control → String
  | endExpr => "END_EXPR"
  | openBracket => "OPEN_BRACKET"
  | closeBracket => "CLOSE_BRACKET"
  | join => "JOIN"

def Control.ordinal : Control → Nat
  | endExpr => 1
  | openBracket => 2
  | closeBracket => 3
  | join => 4

def Arithmetic.all : List Arithmetic := [add, sub, mul, div, pow, negate]

def Control.all : List Control := [endExpr, openBracket, closeBracket, join]

/-- A kind as it is written in messages. -/
def Kind.written : Kind → String
  | arithmetic op => s!"<Builtin.{op.name}: {op.ordinal}>"
  | control marker => s!"<Control.{marker.name}: {marker.ordinal}>"
  | callStart name => s!"FunStart(name={Text.quoted name})"
  | callEnd => "FunEnd()"
  | comma => "Comma()"

/-- A kind as it is written inside a token: members of a family go by their bare names. -/
def Kind.short : Kind → String
  | arithmetic op => op.name
  | control marker => marker.name
  | kind => kind.written

end Reckoner
