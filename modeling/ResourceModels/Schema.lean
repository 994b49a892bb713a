import ResourceModels.Json
import ResourceModels.Text

/-!
Schemas of resources: what a value may be, and the schemas of its parts. The keywords of a schema
that hold no schemas are kept in one record, and every keyword without a meaning here among the
`extensions`. Parts are reached through properties, items, additional properties, `allOf`, `anyOf`,
`oneOf` and `not`, in this order.
-/

namespace ResourceModels

/-- Whether further properties are allowed, or what they have to be. -/
inductive Extra (σ : Type)
  | flag (b : Bool)
  | schema (s : σ)
deriving BEq

/-- The keywords of a schema that hold no schemas. -/
structure Keywords where
  reference : Option String := none
  typeName : Option String := none
  format : Option String := none
  description : Option String := none
  required : List String := []
  values : List Json := []
  default? : Option Json := none
  extensions : Dict Json := []
deriving BEq, Inhabited

structure Schema where
  keywords : Keywords := {}
  properties : List (String × Schema) := []
  items : Option Schema := none
  additional : Option (Extra Schema) := none
  allOf : List Schema := []
  anyOf : List Schema := []
  oneOf : List Schema := []
  not : Option Schema := none
deriving BEq, Inhabited

namespace Keywords

def isType (k : Keywords) (name : String) : Bool := k.typeName == some name

def extension? (k : Keywords) (key : String) : Option Json := k.extensions.get? key

def extensionText? (k : Keywords) (key : String) : Option String :=
  (k.extension? key).bind Json.text?

/-- A flag among the extensions; a missing one does not hold. -/
def extensionFlag (k : Keywords) (key : String) : Bool :=
  ((k.extension? key).bind Json.bool?).getD false

def setExtension (k : Keywords) (key : String) (value : Json) : Keywords :=
  { k with extensions := k.extensions.insert key value }

end Keywords

namespace Schema

/-- What a reference to a component of the same document begins with. -/
def componentStart : String := "#/components/schemas/"

def componentRef (name : String) : String := componentStart ++ name

/-- The component that a reference names, if it is local. -/
def refTarget? (reference : String) : Option String := Text.after? componentStart reference

def typed (name : String) : Schema := { keywords := { typeName := some name } }

def ref (name : String) : Schema := { keywords := { reference := some (componentRef name) } }

/-- A schema around a reference, so that other keywords can stand beside it. -/
def allOfRef (name : String) : Schema := { allOf := [ref name] }

def withDescription (s : Schema) (text : String) : Schema :=
  { s with keywords := { s.keywords with description := some text } }

def withFormat (s : Schema) (text : String) : Schema :=
  { s with keywords := { s.keywords with format := some text } }

def withRequired (s : Schema) (names : List String) : Schema :=
  { s with keywords := { s.keywords with required := names } }

def withProperty (s : Schema) (name : String) (p : Schema) : Schema :=
  { s with properties := Dict.insert s.properties name p }

def withItems (s items : Schema) : Schema := { s with items := some items }

def withAdditional (s extra : Schema) : Schema := { s with additional := some (.schema extra) }

def setExtension (s : Schema) (key : String) (value : Json) : Schema :=
  { s with keywords := s.keywords.setExtension key value }

mutual

/-- The schema and all schemas within it, each before its parts. -/
def nodes : Schema → List Schema
  | ⟨k, properties, items, additional, allOf, anyOf, oneOf, not⟩ =>
    ⟨k, properties, items, additional, allOf, anyOf, oneOf, not⟩ ::
      (namedNodes properties ++ optionNodes items ++ extraNodes additional ++ listNodes allOf ++
        listNodes anyOf ++ listNodes oneOf ++ optionNodes not)
termination_by structural s => s

def namedNodes : List (String × Schema) → List Schema
  | [] => []
  | (_, s) :: rest => nodes s ++ namedNodes rest
termination_by structural s => s

def listNodes : List Schema → List Schema
  | [] => []
  | s :: rest => nodes s ++ listNodes rest
termination_by structural s => s

def optionNodes : Option Schema → List Schema
  | none => []
  | some s => nodes s
termination_by structural s => s

def extraNodes : Option (Extra Schema) → List Schema
  | none => []
  | some (.flag _) => []
  | some (.schema s) => nodes s
termination_by structural s => s

end

section

variable (f : Schema → Schema)

mutual

/-- Changes the schema and every schema within it, each after its parts. -/
def mapNodes : Schema → Schema
  | ⟨k, properties, items, additional, allOf, anyOf, oneOf, not⟩ =>
    f ⟨k, mapNamed properties, mapOption items, mapExtra additional, mapList allOf, mapList anyOf,
      mapList oneOf, mapOption not⟩
termination_by structural s => s

def mapNamed : List (String × Schema) → List (String × Schema)
  | [] => []
  | (name, s) :: rest => (name, mapNodes s) :: mapNamed rest
termination_by structural s => s

def mapList : List Schema → List Schema
  | [] => []
  | s :: rest => mapNodes s :: mapList rest
termination_by structural s => s

def mapOption : Option Schema → Option Schema
  | none => none
  | some s => some (mapNodes s)
termination_by structural s => s

def mapExtra : Option (Extra Schema) → Option (Extra Schema)
  | none => none
  | some (.flag b) => some (.flag b)
  | some (.schema s) => some (.schema (mapNodes s))
termination_by structural s => s

end

end

/-- Changes the keywords of the schema and of every schema within it. -/
def mapKeywords (f : Keywords → Keywords) : Schema → Schema :=
  mapNodes fun s => { s with keywords := f s.keywords }

/-- Adds a name that is not yet there at the end. -/
def addName (names : List String) (name : String) : List String :=
  if name ∈ names then names else names ++ [name]

/-- The components that are referred to anywhere in the schema, in the order they are met. -/
def referencedComponents (s : Schema) : List String :=
  (s.nodes.filterMap fun n => n.keywords.reference.bind refTarget?).foldl addName []

end Schema

end ResourceModels
