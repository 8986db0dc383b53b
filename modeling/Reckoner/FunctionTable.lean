import Reckoner.Fault

/-!
Tables of user functions. A table lists its definitions in the order in which their names first
arrived; registering a name again replaces its definition in place. What an implementation is stays
open here.
-/

namespace Reckoner

/-- A function as a table holds it. -/
structure Definition (ι : Type) where
  name : String
  arity : Nat
  implementation : ι

/-- What is handed in to be registered. -/
structure Registration (ι : Type) where
  name : String
  arity : Int
  implementation : ι

/-- A table of user functions, in the order of their names' first arrival. -/
structure FunctionTable (ι : Type) where
  toList : List (Definition ι)

inductive Change (ι : Type) where
  | insert (d : Definition ι)
  | clear

variable {ι : Type}

namespace FunctionTable

def empty : FunctionTable ι := ⟨[]⟩

def size (table : FunctionTable ι) : Nat := table.toList.length

def find? (table : FunctionTable ι) (name : String) : Option (Definition ι) :=
  table.toList.find? fun d => d.name == name

def contains (table : FunctionTable ι) (name : String) : Bool :=
  table.toList.any fun d => d.name == name

/-- Puts a definition in the place of the one with its name, or at the end. -/
def place (d : Definition ι) : List (Definition ι) → List (Definition ι)
  | [] => [d]
  | e :: es => if e.name = d.name then d :: es else e :: place d es

def insert (table : FunctionTable ι) (d : Definition ι) : FunctionTable ι := ⟨place d table.toList⟩

def change (table : FunctionTable ι) : Change ι → FunctionTable ι
  | .insert d => table.insert d
  | .clear => .empty

def get (table : FunctionTable ι) (name : String) : Except Fault (Definition ι) :=
  match table.find? name with
  | some d => .ok d
  | none => .error (.unknownFunction name)

end FunctionTable

/-- The definition that a registration asks for; a negative arity is refused. -/
def Registration.definition (r : Registration ι) : Except Fault (Definition ι) :=
  if r.arity < 0 then .error (.negativeArity r.name r.arity)
  else .ok ⟨r.name, r.arity.toNat, r.implementation⟩

end Reckoner
