import ResourceModels.Definition
import ResourceModels.Schema.Reading

/-!
Reading definitions from values. Group, names, the kind among the names and the name of each version
have to be given; everything else has a default.
-/

namespace ResourceModels

open Yaml (Value)

variable (d : Dialect)

namespace Metadata

def take (m : Metadata) (key : String) (v : Value) : Except Mismatch Metadata :=
  match key with
  | "name" => do return { m with name := ← Decode.text d v }
  | "labels" => do return { m with labels := ← Decode.dict d (Decode.text d) v }
  | "annotations" => do return { m with annotations := ← Decode.dict d (Decode.text d) v }
  | _ => .ok m

def ofValue (v : Value) : Except Mismatch Metadata := do
  return (← Decode.record d "ObjectMeta" ["name", "labels", "annotations"] (take d) {} v).1

end Metadata

namespace Names

/-- Names of which the kind may not have been read yet. -/
structure Draft where
  kind : Option String := none
  names : Names := { kind := "" }

def take (p : Draft) (key : String) (v : Value) : Except Mismatch Draft :=
  let n := p.names
  match key with
  | "kind" => do return { p with kind := some (← Decode.text d v) }
  | "plural" => do return { p with names := { n with plural := ← Decode.text d v } }
  | "singular" => do
    return { p with names := { n with singular := ← Decode.optional (Decode.text d) v } }
  | "listKind" => do
    return { p with names := { n with listKind := ← Decode.optional (Decode.text d) v } }
  | "shortNames" => do
    return { p with names := { n with shortNames := ← Decode.list d (Decode.text d) v } }
  | "categories" => do
    return { p with names := { n with categories := ← Decode.list d (Decode.text d) v } }
  | _ => .ok p

def ofValue (v : Value) : Except Mismatch Names := do
  let order := ["kind", "plural", "singular", "listKind", "shortNames", "categories"]
  let (p, shape) ← Decode.record d "Names" order (take d) {} v
  return { p.names with kind := ← Decode.required shape "kind" 0 p.kind }

end Names

def Validation.ofValue (v : Value) : Except Mismatch Validation := do
  let take (p : Validation) (key : String) (v : Value) : Except Mismatch Validation :=
    match key with
    | "openAPIV3Schema" => do return ⟨← Schema.ofOptional d v⟩
    | _ => .ok p
  return (← Decode.record d "Validation" ["openAPIV3Schema"] take {} v).1

namespace ResourceVersion

structure Draft where
  name : Option String := none
  version : ResourceVersion := { name := "" }

def take (p : Draft) (key : String) (v : Value) : Except Mismatch Draft :=
  let x := p.version
  match key with
  | "name" => do return { p with name := some (← Decode.text d v) }
  | "served" => do return { p with version := { x with served := ← Decode.bool d v } }
  | "storage" => do return { p with version := { x with storage := ← Decode.bool d v } }
  | "schema" => do
    return { p with version := { x with validation := ← Decode.optional (Validation.ofValue d) v } }
  | "subresources" => do
    return { p with version := { x with subresources := ← Decode.optional (Decode.json d) v } }
  | "additionalPrinterColumns" => do
    return { p with version := { x with printerColumns := ← Decode.list d (Decode.json d) v } }
  | _ => .ok p

def ofValue (v : Value) : Except Mismatch ResourceVersion := do
  let order := ["name", "served", "storage", "schema", "subresources", "additionalPrinterColumns"]
  let (p, shape) ← Decode.record d "CrdVersion" order (take d) {} v
  return { p.version with name := ← Decode.required shape "name" 0 p.name }

end ResourceVersion

namespace ResourceDefinition

/-- The part below `spec`, of which some fields are read. -/
structure Draft where
  group : Option String := none
  names : Option Names := none
  scope : String := "Namespaced"
  versions : List ResourceVersion := []

def takeSpec (p : Draft) (key : String) (v : Value) : Except Mismatch Draft :=
  match key with
  | "group" => do return { p with group := some (← Decode.text d v) }
  | "names" => do return { p with names := some (← Names.ofValue d v) }
  | "scope" => do return { p with scope := ← Decode.text d v }
  | "versions" => do
    return { p with versions := ← Decode.list d (ResourceVersion.ofValue d) v }
  | _ => .ok p

/-- A definition with the parts below `spec`, once they are read. -/
def specOfValue (v : Value) : Except Mismatch ResourceDefinition := do
  let known := ["group", "names", "scope", "versions"]
  let (p, shape) ← Decode.record d "CrdSpec" known (takeSpec d) {} v
  let group ← Decode.required shape "group" 0 p.group
  let names ← Decode.required shape "names" 1 p.names
  return { group := group, names := names, scope := p.scope, versions := p.versions }

structure Header where
  apiVersion : Option String := none
  kind : Option String := none
  metadata : Metadata := {}

structure Outer (α : Type) where
  header : Header := {}
  spec : Option α := none

/-- The fields that both kinds of definitions have outside of `spec`. -/
def takeOuter (spec : Value → Except Mismatch α) (p : Outer α) (key : String) (v : Value) :
    Except Mismatch (Outer α) :=
  let h := p.header
  match key with
  | "apiVersion" => do return { p with header := { h with apiVersion := some (← Decode.text d v) } }
  | "kind" => do return { p with header := { h with kind := some (← Decode.text d v) } }
  | "metadata" => do return { p with header := { h with metadata := ← Metadata.ofValue d v } }
  | "spec" => do return { p with spec := some (← spec v) }
  | _ => .ok p

def outerFields : List String := ["apiVersion", "kind", "metadata", "spec"]

def ofValue (v : Value) : Except Mismatch ResourceDefinition := do
  let (p, shape) ←
    Decode.record d "CustomResourceDefinition" outerFields (takeOuter d (specOfValue d)) {} v
  let r ← Decode.required shape "spec" 3 p.spec
  let h := p.header
  return { r with
    apiVersion := h.apiVersion.getD apiVersionName
    kind := h.kind.getD kindName
    metadata := h.metadata }

end ResourceDefinition

namespace CompositeVersion

structure Draft where
  name : Option String := none
  version : CompositeVersion := { name := "" }

def take (p : Draft) (key : String) (v : Value) : Except Mismatch Draft :=
  let x := p.version
  match key with
  | "name" => do return { p with name := some (← Decode.text d v) }
  | "served" => do return { p with version := { x with served := ← Decode.bool d v } }
  | "referenceable" => do return { p with version := { x with referenceable := ← Decode.bool d v } }
  | "schema" => do
    return { p with version := { x with validation := ← Decode.optional (Validation.ofValue d) v } }
  | "additionalPrinterColumns" => do
    return { p with version := { x with printerColumns := ← Decode.list d (Decode.json d) v } }
  | _ => .ok p

def ofValue (v : Value) : Except Mismatch CompositeVersion := do
  let order := ["name", "served", "referenceable", "schema", "additionalPrinterColumns"]
  let (p, shape) ← Decode.record d "XrdVersion" order (take d) {} v
  return { p.version with name := ← Decode.required shape "name" 0 p.name }

end CompositeVersion

namespace CompositeDefinition

structure Draft where
  group : Option String := none
  names : Option Names := none
  claimNames : Option Names := none
  versions : List CompositeVersion := []

def takeSpec (p : Draft) (key : String) (v : Value) : Except Mismatch Draft :=
  match key with
  | "group" => do return { p with group := some (← Decode.text d v) }
  | "names" => do return { p with names := some (← Names.ofValue d v) }
  | "claimNames" => do return { p with claimNames := ← Decode.optional (Names.ofValue d) v }
  | "versions" => do
    return { p with versions := ← Decode.list d (CompositeVersion.ofValue d) v }
  | _ => .ok p

def specOfValue (v : Value) : Except Mismatch CompositeDefinition := do
  let (p, shape) ←
    Decode.record d "XrdSpec" ["group", "names", "claimNames", "versions"] (takeSpec d) {} v
  let group ← Decode.required shape "group" 0 p.group
  let names ← Decode.required shape "names" 1 p.names
  return { group := group, names := names, claimNames := p.claimNames, versions := p.versions }

def ofValue (v : Value) : Except Mismatch CompositeDefinition := do
  let (p, shape) ← Decode.record d "CompositeResourceDefinition" ResourceDefinition.outerFields
    (ResourceDefinition.takeOuter d (specOfValue d)) {} v
  let x ← Decode.required shape "spec" 3 p.spec
  let h := p.header
  return { x with
    apiVersion := h.apiVersion.getD ""
    kind := h.kind.getD ""
    metadata := h.metadata }

end CompositeDefinition

end ResourceModels
