import Reckoner.Kind
import Reckoner.Value.Equality

/-!
Items: whatever a source may yield. Only two shapes can be read as tokens, a number whose payload
converts to a double and an operation that wraps a kind; the others are held here so that they can
be refused with their own text.
-/

namespace Reckoner

/-- One item of a source: a number token with its payload, an operation token, which may wrap anything, a
kind that no operation wraps, or a bare value. -/
inductive Item where
  | number (payload : Value)
  | operation (subject : Item)
  | kind (k : Kind)
  | value (v : Value)

/-- A token as the evaluator works with it. -/
inductive Token where
  | number (x : Float)
  | operator (kind : Kind)

namespace Item

def ofToken : Token → Item
  | .number x => number (.float x)
  | .operator k => operation (kind k)

def written : Item → Except Signal String
  | number payload => payload.written.map fun text => s!"Number({text})"
  | operation (kind k) => .ok s!"Operation({k.short})"
  | operation subject => (written subject).map fun text => s!"Operation({text})"
  | kind k => .ok k.written
  | value v => v.written

/-- Equality of items: of one shape, with equal contents. -/
def equal : Item → Item → Bool
  | number a, b => match b with | number a' => a.equal a' | _ => false
  | operation a, b => match b with | operation a' => equal a a' | _ => false
  | kind a, b => match b with | kind a' => a == a' | _ => false
  | value a, b => match b with | value a' => a.equal a' | _ => false

end Item

end Reckoner
