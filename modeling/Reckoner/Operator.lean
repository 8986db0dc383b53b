import Reckoner.Kind

/-!
What decides the order of reductions: every kind has an arity, a precedence and an associativity,
and an incoming operator makes the pending ones reduce that bind at least as tightly. Only the arity
of a call is not fixed here. A higher precedence binds tighter: the end of an expression 0, brackets
and the start of a call 1, sums 2, products 3, powers 4, negation 5, joining 6, the end of a call
and commas 7.
-/

namespace Reckoner

/-- Which of two operators of one precedence goes first. -/
inductive Associativity where
  | left
  | right
  deriving DecidableEq, Repr

/-- What the machine knows of an operator; its arity is how many values it takes. -/
structure Operator where
  arity : Nat
  precedence : Nat
  associativity : Associativity
  deriving DecidableEq, Repr

def Arithmetic.operator : Arithmetic → Operator
  | add => ⟨2, 2, .left⟩
  | sub => ⟨2, 2, .left⟩
  | mul => ⟨2, 3, .left⟩
  | div => ⟨2, 3, .left⟩
  | pow => ⟨2, 4, .right⟩
  | negate => ⟨1, 5, .right⟩

def Control.operator : Control → Operator
  | endExpr => ⟨0, 0, .left⟩
  | openBracket => ⟨0, 1, .left⟩
  | closeBracket => ⟨0, 1, .left⟩
  | join => ⟨2, 6, .left⟩

namespace Operator

/-- The start of a call to a function of some arity. -/
def call (arity : Nat) : Operator := ⟨arity, 1, .left⟩

/-- The end of a call and the comma: weaker than nothing, so that they take no pending operator with
them but give way to whatever comes next. -/
def barrier : Operator := ⟨0, 7, .left⟩

/-- The pending operator reduces before the incoming one joins it: it binds tighter, or equally
tight and to the left. -/
def unwinds (incoming pending : Operator) : Bool :=
  incoming.precedence < pending.precedence ||
    incoming.precedence == pending.precedence && pending.associativity == .left

end Operator

end Reckoner
