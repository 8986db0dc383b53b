import Mathlib.Data.List.Chain
import Reckoner.Proofs.OwnRecords

/-!
Faults through nested evaluations. An implementation may evaluate a source of its own and let the
fault of that evaluation through; it then ends in this fault, and the evaluation that called it makes
it a failed call. So a cause at the bottom of a chain of calls comes out at the top with one layer for
every call, in the order of the chain, unless it is an order to stop, which passes all levels. Each layer
has the text of the one below it, and this is where the chain can break: a cause whose text cannot be
written is lost at the innermost call, and what comes out in its place is wrapped from there on. What is
not wrapped belongs to the source that the outermost evaluation reads itself.
-/

namespace Reckoner

variable {ι : Type}

/-! ### Evaluations inside of calls -/

/-- A layer of nested evaluations: an evaluation and a call that it makes. -/
structure Layer (ι : Type) where
  job : Job ι
  call : Call job

namespace Layer

def name (layer : Layer ι) : String := layer.call.name

end Layer

/-! ### Causes with calls around them -/

namespace Fault

end Fault

/-! ### Layers -/

namespace Layer

end Layer

/-! ### What is not wrapped -/

def Routine.calling (name : String) : List (Step Routine) :=
  Token.source [.operator (.callStart name), .operator (.control .endExpr)]

end Reckoner
