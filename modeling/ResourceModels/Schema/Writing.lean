import ResourceModels.Schema

/-!
A schema as a JSON value. Keywords that are not given and empty lists and objects are left out; the
extensions stand after the keywords.
-/

namespace ResourceModels.Schema

def fieldOf (name : String) (value : Option Json) : List (String × Json) :=
  match value with
  | some j => [(name, j)]
  | none => []

/-- A list of values, unless it is empty. -/
def listField (name : String) (items : List Json) : List (String × Json) :=
  if items.isEmpty then [] else [(name, .arr items)]

def textField (name : String) (value : Option String) : List (String × Json) :=
  fieldOf name (value.map .str)

mutual

/-- The fields of a schema in the order in which they are written. -/
def fields : Schema → List (String × Json)
  | ⟨k, properties, items, additional, allOf, anyOf, oneOf, not⟩ =>
    textField "$ref" k.reference ++ textField "type" k.typeName ++ textField "format" k.format ++
      textField "description" k.description ++
      (if properties.isEmpty then [] else [("properties", .obj (namedJson properties))]) ++
      fieldOf "items" (optionJson items) ++ listField "required" (k.required.map .str) ++
      listField "allOf" (listJson allOf) ++ listField "anyOf" (listJson anyOf) ++
      listField "oneOf" (listJson oneOf) ++ fieldOf "not" (optionJson not) ++
      fieldOf "additionalProperties" (extraJson additional) ++ listField "enum" k.values ++
      fieldOf "default" k.default? ++ k.extensions
termination_by structural s => s

def namedJson : List (String × Schema) → List (String × Json)
  | [] => []
  | (name, s) :: rest => (name, .obj (fields s)) :: namedJson rest
termination_by structural s => s

def listJson : List Schema → List Json
  | [] => []
  | s :: rest => .obj (fields s) :: listJson rest
termination_by structural s => s

def optionJson : Option Schema → Option Json
  | none => none
  | some s => some (.obj (fields s))
termination_by structural s => s

def extraJson : Option (Extra Schema) → Option Json
  | none => none
  | some (.flag b) => some (.bool b)
  | some (.schema s) => some (.obj (fields s))
termination_by structural s => s

end

/-- The schema with its fields in the order in which they are written. -/
def toJson (s : Schema) : Json := .obj s.fields

end ResourceModels.Schema
