import ResourceModels.Decode.Document
import ResourceModels.OpenApi
import ResourceModels.Schema.Reading

/-!
Reading the description of an interface from a YAML text.
-/

/-!
## Schemas

Reading a schema straight from a document. A keyword without a meaning here is set aside until the
schema ends, and so is what stands for additional properties until it is known whether it is a flag
or a schema. What is set aside has texts for keys.
-/

namespace ResourceModels.Schema

open Yaml (Event Value Walk)
open Yaml.Walk (node text optional list dict json mapping fitting orFault)

def extraOfEvent (e : Event) : Walk (Option (Extra Schema)) := do
  match ← optional Value.setAside e with
  | none => return none
  | some .null => Yaml.Walk.fault
  | some v => fitting (ofExtra .buffered v)

/-- Takes up the keyword whose value comes next; `part` reads a schema within. -/
def takeNext (part : Event → Walk Schema) (p : Draft) (key : String) : Walk Draft := do
  let p ← orFault (p.meet? key)
  let s := p.schema
  let k := s.keywords
  let keep (s : Schema) : Draft := { p with schema := s }
  match key with
  | "$ref" => return withKeywords p { k with reference := ← node (optional text) }
  | "type" => return withKeywords p { k with typeName := ← node (optional text) }
  | "format" => return withKeywords p { k with format := ← node (optional text) }
  | "description" => return withKeywords p { k with description := ← node (optional text) }
  | "required" => return withKeywords p { k with required := ← node (list text) }
  | "enum" => return withKeywords p { k with values := ← node (list json) }
  | "default" => return withKeywords p { k with default? := ← node (optional json) }
  | "properties" => return keep { s with properties := ← node (dict part) }
  | "items" => return keep { s with items := ← node (optional part) }
  | "not" => return keep { s with not := ← node (optional part) }
  | "allOf" => return keep { s with allOf := ← node (list part) }
  | "anyOf" => return keep { s with anyOf := ← node (list part) }
  | "oneOf" => return keep { s with oneOf := ← node (list part) }
  | "additionalProperties" => return keep { s with additional := ← node extraOfEvent }
  | key => return { p with others := p.others ++ [(key, ← node Value.setAside)] }

/-- A schema from its first event on. The fuel bounds how deep schemas are nested. -/
def ofEvent : Nat → Event → Walk Schema
  | 0, _ => Yaml.Walk.fault
  | fuel + 1, e => do fitting (finish .buffered (← mapping (takeNext (ofEvent fuel)) {} e))

end ResourceModels.Schema

/-! ## Interfaces -/

namespace ResourceModels.OpenApi

open Yaml (Event Walk)
open Yaml.Walk (text dict json record orFault)

def infoOfEvent (e : Event) : Walk (String × String) := do
  let take (p : Option String × Option String) (key : String) (e : Event) :
      Walk (Option String × Option String) :=
    match key with
    | "title" => do return (some (← text e), p.2)
    | _ => do return (p.1, some (← text e))
  let (title, version) ← record ["title", "version"] take (none, none) e
  return (← orFault title, ← orFault version)

def schemasOfEvent : Event → Walk (Dict Schema) :=
  record ["schemas"] (fun _ _ => dict (Schema.ofEvent (Yaml.Walk.depthLimit + 1))) []

def ofEvent (e : Event) : Walk OpenApi := do
  let take (p : Draft) (key : String) (e : Event) : Walk Draft :=
    match key with
    | "openapi" => do return { p with version := some (← text e) }
    | "info" => do return { p with info := some (← infoOfEvent e) }
    | "paths" => do return { p with paths := ← dict json e }
    | _ => do return { p with schemas := ← schemasOfEvent e }
  let p ← record ["openapi", "info", "paths", "components"] take {} e
  let (title, revision) ← orFault p.info
  return ⟨← orFault p.version, title, revision, p.paths, p.schemas⟩

def parse? (text : String) : Option OpenApi := (Yaml.Document.readOnly text ofEvent).toOption

end ResourceModels.OpenApi
