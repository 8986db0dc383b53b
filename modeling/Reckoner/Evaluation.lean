import Reckoner.Machine

/-!
Evaluating a source. A source yields items one by one and may change the function table in between,
when it is asked for the next item. Every item is taken, read as a token and handed to the machine.
A fault ends the evaluation at once, and one that rejects the stream is reported as its last event.
-/

namespace Reckoner

/-- What a source does when it is asked to go on: it yields an item, or it works on the table first. -/
inductive Step (ι : Type) where
  | yield (item : Item)
  | register (r : Registration ι)
  | clear

def Item.token : Item → Except Fault Token
  | number payload => payload.operand.map .number
  | operation (kind k) => .ok (.operator k)
  | operation subject => .error (.ofSubject subject)
  | item => .error (.ofItem item)

variable {ι σ : Type} [Store σ ι]

namespace Machine

def step (invoke : Invocation ι σ) (options : Options) (m : Machine) : Step ι → Run σ Machine
  | .yield item => do
    Run.note .taken
    let token ← Run.ofExcept item.token
    m.readToken invoke options token
  | .register r => do
    Run.register r
    return m
  | .clear => do
    Run.clear
    return m

def steps (invoke : Invocation ι σ) (options : Options) (m : Machine) (source : List (Step ι)) :
    Run σ Machine :=
  source.foldlM (step invoke options) m

end Machine

/-- Evaluates the steps of a source to the one value that they reduce to. -/
def evaluateSteps (invoke : Invocation ι σ) (options : Options) (source : List (Step ι)) :
    Run σ Float :=
  Run.reportingRejection do
    let m ← Machine.initial.steps invoke options source
    Run.ofExcept m.result

abbrev Evaluator (ι : Type) (σ : Type := FunctionTable ι) : Type :=
  Options → Option (List (Step ι)) → Run σ Float

/-- Evaluates a source, which must be there. -/
def evaluate (invoke : Invocation ι σ) (options : Options) :
    Option (List (Step ι)) → Run σ Float
  | some source => evaluateSteps invoke options source
  | none => Run.fail .noSource

end Reckoner
