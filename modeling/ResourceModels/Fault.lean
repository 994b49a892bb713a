import ResourceModels.Text

/-!
How a failure is reported: a stable code, the part of the program it comes from, and a text. Each
part of the library has its own type of causes and says here how they read. A failure that comes
from another tells the text of that one, too, in its own text and once more on its own.
-/

namespace ResourceModels

class Fault (ε : Type) where
  code : ε → String
  category : ε → String
  message : ε → String
  /-- The texts of the failures it comes from, the nearest first. -/
  causes : ε → List String := fun _ => []

/-- A failure as it is shown, whatever part it came from. -/
structure Report where
  code : String
  category : String
  message : String
deriving DecidableEq, Repr

def Fault.report {ε : Type} [Fault ε] (e : ε) : Report :=
  ⟨Fault.code e, Fault.category e, Fault.message e⟩

/-- The texts of a failure and of all that it comes from. -/
def Fault.trail {ε : Type} [Fault ε] (e : ε) : List String := Fault.message e :: Fault.causes e

end ResourceModels
