import ResourceModels.Collect
import ResourceModels.FileTree
import ResourceModels.Json.Writing

/-!
JSON Schemas for editors: a file for every component of all documents, with references to the files
of other components. Objects that do not say otherwise are closed to further properties.
-/

namespace ResourceModels.JsonSchema

inductive JsonSchemaError
  | definition (cause : DefinitionError)
  | file (cause : FileError)

instance : Fault JsonSchemaError where
  code
    | .definition _ => "JSON_001"
    | .file _ => "JSON_002"
  category _ := "json"
  message
    | .definition cause => Fault.message cause
    | .file cause => Fault.message cause
  causes
    | .definition cause => Fault.causes cause
    | .file cause => Fault.causes cause

/-- The file of a component, as its neighbours refer to it. -/
def fileName (component : String) : String :=
  String.ofList (component.toList.map fun c => if c = '.' then '-' else c) ++ ".schema.json"

def filePath (component : String) : String := "models/" ++ fileName component

/-- Whether a schema is an object that does not say whether further properties are allowed. -/
def isSilent (s : Schema) : Bool :=
  s.keywords.isType "object" && s.additional.isNone &&
    !s.keywords.extensionFlag "x-kubernetes-preserve-unknown-fields"

def close (s : Schema) : Schema :=
  if isSilent s then { s with additional := some (.flag false) } else s

/-- Lets a reference to a component point at the file of that component. -/
def relink (k : Keywords) : Keywords :=
  match k.reference.bind Schema.refTarget? with
  | some component => { k with reference := some (fileName component) }
  | none => k

/-- Closes an object and points a reference at its file. -/
def settle (s : Schema) : Schema :=
  let s := close s
  { s with keywords := relink s.keywords }

def convert (s : Schema) : Json := (Schema.mapNodes settle s).toJson

def fileText (s : Schema) : String := (convert s).sorted.pretty

/-- The components of all documents by name; of those with one name the last is taken. -/
def components (documents : List OpenApi) : Dict Schema :=
  documents.foldl (fun d doc => Dict.insertAll d doc.schemas) []

/-- The JSON Schemas of the definitions among some files, if there are definitions. -/
def generate {σ : Type} [FileStore σ] (files : σ) (exclude : List String) :
    Except JsonSchemaError (Option FileTree) := do
  let extracts ← (Collect.documents files exclude).mapError .definition
  if extracts.isEmpty then return none
  let all := components (extracts.map (·.document))
  let written := FileTree.ofTexts (all.map fun c => (filePath c.1, fileText c.2))
  return some (← written.mapError .file)

end ResourceModels.JsonSchema
