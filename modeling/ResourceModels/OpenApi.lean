import ResourceModels.Schema.Reading
import ResourceModels.Schema.Writing
import ResourceModels.Yaml.Writing

/-!
Documents that describe an interface: paths, and named schemas that refer to each other. A reference
is local to its document.
-/

namespace ResourceModels

structure OpenApi where
  version : String := "3.0.0"
  title : String
  revision : String
  paths : Dict Json := []
  schemas : Dict Schema := []
deriving BEq, Inhabited

namespace OpenApi

/-- Changes the keywords of every component and of every schema within one. -/
def mapKeywords (doc : OpenApi) (f : Keywords → Keywords) : OpenApi :=
  { doc with schemas := Dict.mapValues (Schema.mapKeywords f) doc.schemas }

/-- Lets a reference to one component refer to another one. -/
def redirect (source target : String) (k : Keywords) : Keywords :=
  if k.reference = some (Schema.componentRef source) then
    { k with reference := some (Schema.componentRef target) }
  else k

/-- Gives a component another name, in its references too. -/
def renameComponent (doc : OpenApi) (source target : String) : OpenApi :=
  let schemas := match doc.schemas.get? source with
    | some s => Dict.insert (Dict.erase doc.schemas source) target s
    | none => doc.schemas
  { doc with schemas := schemas }.mapKeywords (redirect source target)

def schemasJson (schemas : Dict Schema) : List (String × Json) :=
  Dict.mapValues Schema.toJson schemas

/-- The document with its fields in the order in which they are written. -/
def toJson (doc : OpenApi) : Json :=
  .obj [("openapi", .str doc.version),
    ("info", .obj [("title", .str doc.title), ("version", .str doc.revision)]),
    ("paths", .obj doc.paths), ("components", .obj [("schemas", .obj (schemasJson doc.schemas))])]

def toYaml (doc : OpenApi) : String := Yaml.write doc.toJson

/-- A document of which some fields are read. -/
structure Draft where
  version : Option String := none
  info : Option (String × String) := none
  paths : Dict Json := []
  schemas : Dict Schema := []

open Yaml (Value)

def readInfo (d : Dialect) (v : Value) : Except Mismatch (String × String) := do
  let take (p : Option String × Option String) (key : String) (v : Value) :
      Except Mismatch (Option String × Option String) :=
    match key with
    | "title" => do return (some (← Decode.text d v), p.2)
    | "version" => do return (p.1, some (← Decode.text d v))
    | _ => .ok p
  let (p, shape) ← Decode.record d "Info" ["title", "version"] take (none, none) v
  return (← Decode.required shape "title" 0 p.1, ← Decode.required shape "version" 1 p.2)

def readComponents (d : Dialect) (v : Value) : Except Mismatch (Dict Schema) := do
  let take (p : Dict Schema) (key : String) (v : Value) : Except Mismatch (Dict Schema) :=
    match key with
    | "schemas" => Schema.ofProperties d v
    | _ => .ok p
  return (← Decode.record d "Components" ["schemas"] take [] v).1

def readField (d : Dialect) (p : Draft) (key : String) (v : Value) : Except Mismatch Draft :=
  match key with
  | "openapi" => do return { p with version := some (← Decode.text d v) }
  | "info" => do return { p with info := some (← readInfo d v) }
  | "paths" => do return { p with paths := ← Decode.dict d (Decode.json d) v }
  | "components" => do return { p with schemas := ← readComponents d v }
  | _ => .ok p

def ofValue (d : Dialect) (v : Value) : Except Mismatch OpenApi := do
  let (p, shape) ←
    Decode.record d "OpenApiDocument" ["openapi", "info", "paths", "components"] (readField d) {} v
  let version ← Decode.required shape "openapi" 0 p.version
  let (title, revision) ← Decode.required shape "info" 1 p.info
  return ⟨version, title, revision, p.paths, p.schemas⟩

def ofJson (j : Json) : Except Mismatch OpenApi := ofValue .json (.ofJson j)

end OpenApi

end ResourceModels
