import Reckoner.Routine

/-!
A workspace of named objects: function tables, evaluators and registries. A registry refers to a table
by its place and holds options. An evaluator refers to its table, holds options, and has a registry of
its own, so that it refers to a table twice: it calls and registers functions by the one reference, and
looks operators up by the other one. Naming an object again makes the name mean the new object; the old
one lives on for those that refer to it. Everything else that can be asked is a request to one object.
How sources are evaluated stays open here, except for `Workspace.perform`, where implementations are
routines.
-/

namespace Reckoner

structure Registry where
  place : Nat
  options : Options
  deriving DecidableEq, Repr

structure EvaluatorObject where
  place : Nat
  options : Options
  registry : Registry
  deriving DecidableEq, Repr

/-- A new evaluator on the table of a place. -/
def EvaluatorObject.new (place : Nat) (options : Options) : EvaluatorObject :=
  ⟨place, options, ⟨place, options⟩⟩

/-- The tables of a workspace, each at its place, and the names of its objects. -/
structure Workspace (ι : Type := Routine) where
  tables : List (FunctionTable ι)
  tableNames : List (String × Nat)
  evaluators : List (String × EvaluatorObject)
  registries : List (String × Registry)

/-- What a table may go by: a name of its own, that of an evaluator that uses it, or its place. -/
inductive TableName where
  | named (id : String)
  | ofEvaluator (id : String)
  | placed (place : Nat)

inductive Request (ι : Type := Routine) where
  | register (r : Registration ι)
  | clear
  | definition (name : String)
  | contains (name : String)
  | size
  | listing
  | lookup (kind : Item)
  | joinEnabled
  | evaluate (source : Option (List (Step ι)))

/-- Whom a request is addressed to; an evaluator may be made for one request only, on a given table or
one of its own. -/
inductive Target where
  | table (name : TableName)
  | evaluator (id : String)
  | registry (id : String)
  | passing (table : Option TableName) (options : Options)

inductive Command (ι : Type := Routine) where
  | newTable (id : String)
  | newEvaluator (id : String) (table : Option TableName) (options : Options)
  | newRegistry (id : String) (table : TableName) (options : Options)
  | ask (target : Target) (request : Request ι)

/-- The answer to a command that did not fail. -/
inductive Answer where
  | nothing
  | definition (name : String) (arity : Nat)
  | truth (b : Bool)
  | number (n : Nat)
  | listing (entries : List (String × Nat))
  | operator (op : Operator)
  | value (x : Float)

variable {ι : Type}

namespace Workspace

def empty : Workspace ι := ⟨[], [], [], []⟩

/-- The table of a place, which is empty where no table has been made. -/
def tableAt (w : Workspace ι) (place : Nat) : FunctionTable ι := w.tables[place]?.getD .empty

def changeAt (w : Workspace ι) (place : Nat) (c : Change ι) : Workspace ι :=
  { w with tables := w.tables.modify place (·.change c) }

/-- Adds an empty table and tells its place. -/
def addTable (w : Workspace ι) : Nat × Workspace ι :=
  (w.tables.length, { w with tables := w.tables ++ [.empty] })

/-- The place of a table that has been made. -/
def place? (w : Workspace ι) : TableName → Option Nat
  | .named id => w.tableNames.lookup id
  | .ofEvaluator id => (w.evaluators.lookup id).map (·.place)
  | .placed place => if place < w.tables.length then some place else none

/-- The place of the table for a new evaluator: that of a given table, or of one of its own. -/
def placeForNew (w : Workspace ι) : Option TableName → Option (Nat × Workspace ι)
  | some name => (w.place? name).map fun place => (place, w)
  | none => some w.addTable

/-- The parts of the evaluator that deals with the requests to a target. -/
def resolve (w : Workspace ι) : Target → Option (EvaluatorObject × Workspace ι)
  | .table name => (w.place? name).map fun place => (.new place .standard, w)
  | .evaluator id => (w.evaluators.lookup id).map fun e => (e, w)
  | .registry id => (w.registries.lookup id).map fun r => (⟨r.place, r.options, r⟩, w)
  | .passing table options =>
    (w.placeForNew table).map fun (place, w) => (.new place options, w)

end Workspace

/-- States that a workspace is part of. A table in it is changed by its place. -/
class Host (ω : Type) (ι : outParam Type) where
  workspace : ω → Workspace ι
  put : Workspace ι → ω → ω
  change : Nat → Change ι → ω → ω

instance : Host (Workspace ι) ι where
  workspace w := w
  put w _ := w
  change place c w := w.changeAt place c

variable {ω : Type} [Host ω ι]

/-- The part of the state that an evaluator sees. -/
@[reducible] def EvaluatorObject.store (e : EvaluatorObject) : Store ω ι where
  functions s := (Host.workspace s).tableAt e.place
  operators s := (Host.workspace s).tableAt e.registry.place
  change c s := Host.change e.place c s

/-- Carries out a request with the options of an evaluator and of its registry. -/
def Request.run {σ : Type} [Store σ ι] (evaluating : Option (List (Step ι)) → Run σ Float)
    (options registryOptions : Options) : Request ι → Run σ Answer
  | register r => do
    Run.register r
    return .nothing
  | clear => do
    Run.clear
    return .nothing
  | definition name => do
    let d ← Run.definition name
    return .definition d.name d.arity
  | contains name => do
    let table ← Run.readTable
    return .truth (table.contains name)
  | size => do
    let table ← Run.readTable
    return .number table.size
  | listing => do
    let table ← Run.readTable
    return .listing (table.toList.map fun d => (d.name, d.arity))
  | lookup kind => do
    let table ← Run.readOperators
    let op ← Run.ofExcept (kind.lookup registryOptions table)
    return .operator op
  | joinEnabled => return .truth options.joinEnabled
  | evaluate source => do
    let x ← evaluating source
    return .value x

namespace Workspace

abbrev Evaluators (ι : Type) (ω : Type := Workspace ι) : Type :=
  EvaluatorObject → Option (List (Step ι)) → Run ω Float

/-- Makes an object, unless this uses a name that means nothing. -/
def make (object : Workspace ι → Option (Workspace ι)) : Run ω (Option Answer) := fun s =>
  match object (Host.workspace s) with
  | some w => ⟨.ok (some .nothing), Host.put w s, []⟩
  | none => ⟨.ok none, s, []⟩

/-- Carries out a command. Nothing comes of one that uses a name that means nothing. -/
def performWith (evaluators : Evaluators ι ω) : Command ι → Run ω (Option Answer)
  | .newTable id => make fun w =>
    let (place, w) := w.addTable
    some { w with tableNames := (id, place) :: w.tableNames }
  | .newEvaluator id table options => make fun w =>
    (w.placeForNew table).map fun (place, w) =>
      { w with evaluators := (id, .new place options) :: w.evaluators }
  | .newRegistry id table options => make fun w =>
    (w.place? table).map fun place =>
      { w with registries := (id, ⟨place, options⟩) :: w.registries }
  | .ask target request => fun s =>
    match (Host.workspace s).resolve target with
    | some (e, w) =>
      letI : Store ω ι := e.store
      (some <$> request.run (evaluators e) e.options e.registry.options) (Host.put w s)
    | none => ⟨.ok none, s, []⟩

/-- The evaluators whose implementations are routines. -/
def routineEvaluators {ω : Type} [Host ω Routine] : Evaluators Routine ω := fun e =>
  letI : Store ω Routine := e.store
  Routine.evaluateSource e.registry.options

def perform : Command → Run Workspace (Option Answer) := performWith routineEvaluators

end Workspace

end Reckoner
