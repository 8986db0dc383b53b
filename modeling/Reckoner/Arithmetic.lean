import Reckoner.Binary64.Basic
import Reckoner.Fault

/-!
Built-in arithmetic on doubles. Sums and products are those of the doubles. Division and powers
never fail: where the plain operation has no value, the missing value is an infinity with the right
sign or NaN. Joining appends the right number to the left one as a digit and refuses negative
numbers.
-/

namespace Reckoner

/-- The quotient of two doubles. By a zero it is NaN for a zero or NaN, and otherwise an infinity
whose sign is the product of the two signs. -/
def quotient (a b : Float) : Float :=
  if b == 0 then
    if a == 0 || a.isNaN then Binary64.nan
    else Binary64.signedInfinity (Binary64.signBit a != Binary64.signBit b)
  else a / b

/-- The plain power has a pole: a zero base under a negative finite exponent. -/
def powerHasPole (a b : Float) : Bool := a == 0 && b < 0 && b.isFinite

/-- The plain power has no real value: a negative finite base under a finite exponent that is not
whole. -/
def powerIsUndefined (a b : Float) : Bool :=
  a < 0 && a.isFinite && b.isFinite && !Binary64.isInteger b

/-- A power of two doubles. At a pole it is infinite, negative for a negative zero under an odd
exponent; without a real value it is NaN; past the range of doubles it is infinite, negative for a
negative base under an odd exponent. -/
def power (a b : Float) : Float :=
  if powerHasPole a b then
    Binary64.signedInfinity (Binary64.signBit a && Binary64.isOddInteger b)
  else if powerIsUndefined a b then Binary64.nan
  else
    let plain := a.pow b
    if plain.isInf && a.isFinite && b.isFinite then
      Binary64.signedInfinity (a < 0 && Binary64.isOddInteger b)
    else plain

/-- The lesser of two doubles, the left one unless the right one is less. A NaN on the left stays.
-/
def lesser (a b : Float) : Float := if b < a then b else a

/-- Appends `b` to `a` as a digit. -/
def joined (a b : Float) : Except Fault Float :=
  if lesser a b < 0 then .error (.negativeJoin a b) else .ok (a * 10 + b)

/-- What an operator of two values makes of its arguments. -/
def onTwo (f : Float → Float → Except Fault Float) : List Float → Except Fault Float
  | [a, b] => f a b
  | arguments => .error (.wrongCount 2 arguments.length)

/-- Applies an arithmetic operator to its arguments, which must be as many as it takes. -/
def Arithmetic.apply : Arithmetic → List Float → Except Fault Float
  | add => onTwo fun a b => .ok (a + b)
  | sub => onTwo fun a b => .ok (a - b)
  | mul => onTwo fun a b => .ok (a * b)
  | div => onTwo fun a b => .ok (quotient a b)
  | pow => onTwo fun a b => .ok (power a b)
  | negate => fun arguments =>
    match arguments with
    | [a] => .ok (-a)
    | arguments => .error (.wrongCount 1 arguments.length)

/-- Applies a control marker: joining gives a value, the other markers give none. -/
def Control.apply : Control → List Float → Except Fault (Option Float)
  | join, arguments => (onTwo joined arguments).map some
  | _, _ => .ok none

/-- Applies the arithmetic operator that an item names; any other item names none. -/
def Item.applyArithmetic : Item → List Float → Except Fault Float
  | .kind (.arithmetic op), arguments => op.apply arguments
  | .value (.list vs), _ => .error (.unhashable (.list vs))
  | .value (.dict es), _ => .error (.unhashable (.dict es))
  | item, _ => .error (.notArithmetic item)

/-- Applies the control marker that an item names; any other item gives no value. -/
def Item.applyControl : Item → List Float → Except Fault (Option Float)
  | .kind (.control marker), arguments => marker.apply arguments
  | _, _ => .ok none

end Reckoner
