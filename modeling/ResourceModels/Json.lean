import ResourceModels.Decimal
import ResourceModels.Dict

/-!
JSON values. Integers and numbers with a fraction are kept apart, as their texts are. The fields of
an object stand in the order they are given; `Json.sorted` puts them in order of key.
-/

namespace ResourceModels

inductive Json
  | null
  | bool (b : Bool)
  | int (n : Int)
  | float (x : Decimal)
  | str (s : String)
  | arr (items : List Json)
  | obj (fields : List (String × Json))
deriving BEq, Inhabited

namespace Json

def text? : Json → Option String
  | .str s => some s
  | _ => none

def bool? : Json → Option Bool
  | .bool b => some b
  | _ => none

def items? : Json → Option (List Json)
  | .arr items => some items
  | _ => none

def fields? : Json → Option (List (String × Json))
  | .obj fields => some fields
  | _ => none

/-- The value of a field, of an object. -/
def get? (j : Json) (key : String) : Option Json :=
  match j with
  | .obj fields => Dict.get? fields key
  | _ => none

mutual

/-- The value with the fields of every object in order of key; of two fields with one key the later
stays. -/
def sorted : Json → Json
  | .arr items => .arr (sortedItems items)
  | .obj fields => .obj (Dict.ofList (sortedFields fields))
  | j => j

def sortedItems : List Json → List Json
  | [] => []
  | j :: rest => sorted j :: sortedItems rest

def sortedFields : List (String × Json) → List (String × Json)
  | [] => []
  | (key, j) :: rest => (key, sorted j) :: sortedFields rest

end

/-- An object of the given fields, in order of key. -/
def ofFields (fields : List (String × Json)) : Json := .obj (Dict.ofList fields)

def ofTexts (texts : List String) : Json := .arr (texts.map .str)

end Json

end ResourceModels
