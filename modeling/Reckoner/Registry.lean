import Reckoner.FunctionTable
import Reckoner.Operator
import Reckoner.Text.Character
import Reckoner.Text.LowerCase

/-!
Looking operators up. Arithmetic and markers are fixed; the arity of a call is the one that the table
holds at the time of the look-up; joining must be switched on. The switch is on when its value, without
the blanks around it and in lower case, is one of four words.
-/

namespace Reckoner

/-- What can be switched on: joining numbers digit by digit. -/
structure Options where
  joinEnabled : Bool
  deriving DecidableEq, Repr

namespace Options

def standard : Options := ⟨false⟩

/-- The words that switch on. -/
def onWords : List (List Char) :=
  [['1'], ['t', 'r', 'u', 'e'], ['y', 'e', 's'], ['o', 'n']]

/-- The value of a switch turns it on. -/
def isOn (setting : List Char) : Bool :=
  onWords.contains (Text.lowerCase (Text.strip Text.isBlank setting))

/-- The options for the value of the switch for joining; a switch without a value is empty. -/
def ofSetting (setting : Option String) : Options := ⟨isOn (setting.getD "").toList⟩

end Options

variable {ι : Type}

/-- The operator of a kind. -/
def Kind.lookup (options : Options) (table : FunctionTable ι) : Kind → Except Fault Operator
  | arithmetic op => .ok op.operator
  | control .join => if options.joinEnabled then .ok Control.join.operator else .error .joinDisabled
  | control marker => .ok marker.operator
  | callStart name => (table.get name).map fun d => .call d.arity
  | callEnd => .ok .barrier
  | comma => .ok .barrier

/-- The operator of an item, which must be a kind. -/
def Item.lookup (options : Options) (table : FunctionTable ι) : Item → Except Fault Operator
  | kind k => k.lookup options table
  | item => .error (.ofSubject item)

end Reckoner
