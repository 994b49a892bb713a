import ResourceModels.Definition
import ResourceModels.Manifest

/-!
The resources that a composite definition publishes: the composite itself, and a claim if names for
one are given. Their schemas are those of the definition with the fields added that every composite
or claim has; a field that the definition has itself stays as it is.
-/

namespace ResourceModels

namespace Machinery

def string : Schema := Schema.typed "string"

def timestamp : Schema := string.withFormat "date-time"

/-- An object that refers to another one by the given fields. -/
def reference (fields : List String) : Schema :=
  { Schema.typed "object" with properties := Dict.ofList (fields.map fun f => (f, string)) }
    |>.withRequired ["name"]

def labelSelector : Schema :=
  ((Schema.typed "object").withProperty "matchLabels"
    ((Schema.typed "object").withAdditional string)).withRequired ["matchLabels"]

def oneOf (values : List String) : Schema :=
  { string with keywords := { string.keywords with values := values.map .str } }

def sharedFields : List (String × Schema) :=
  [("compositionRef", reference ["name"]), ("compositionSelector", labelSelector),
    ("compositionRevisionRef", reference ["name"]),
    ("compositionRevisionSelector", labelSelector),
    ("compositionUpdatePolicy", oneOf ["Automatic", "Manual"])]

def compositeFields : Dict Schema :=
  Dict.ofList (sharedFields ++
    [("claimRef", reference ["apiVersion", "kind", "name", "namespace"]),
      ("resourceRefs",
        (Schema.typed "array").withItems (reference ["apiVersion", "kind", "name"])),
      ("writeConnectionSecretToRef", reference ["name", "namespace"])])

def claimFields : Dict Schema :=
  Dict.ofList (sharedFields ++
    [("compositeDeletePolicy", oneOf ["Background", "Foreground"]),
      ("resourceRef", reference ["apiVersion", "kind", "name"]),
      ("writeConnectionSecretToRef", reference ["name"])])

def condition : Schema :=
  { Schema.typed "object" with
    properties := Dict.ofList
      [("type", string), ("status", string), ("reason", string), ("message", string),
        ("lastTransitionTime", timestamp)] }
    |>.withRequired ["lastTransitionTime", "reason", "status", "type"]

def statusFields : Dict Schema :=
  Dict.ofList
    [("conditions", (Schema.typed "array").withItems condition),
      ("connectionDetails",
        (Schema.typed "object").withProperty "lastPublishedTime" timestamp)]

end Machinery

namespace Schema

/-- Gives a schema without a type the type of objects. -/
def asObject (s : Schema) : Schema :=
  { s with keywords := { s.keywords with typeName := s.keywords.typeName.or (some "object") } }

/-- Adds the properties that are not there yet. -/
def withMissing (s : Schema) (fields : Dict Schema) : Schema :=
  { s with
    properties := fields.foldl
      (fun ps field => if Dict.contains ps field.1 then ps else Dict.insert ps field.1 field.2)
      s.properties }

/-- Adds missing properties to an object that is a property itself, and that object if there is
none. -/
def withinProperty (s : Schema) (name : String) (fields : Dict Schema) : Schema :=
  let inner := (Dict.get? s.properties name).getD (typed "object")
  s.withProperty name (inner.withMissing fields)

end Schema

namespace CompositeDefinition

/-- What the two derived resources differ in. -/
structure Role where
  scope : String
  category : String
  fields : Dict Schema

def composite : Role := ⟨"Cluster", "composite", Machinery.compositeFields⟩

def claim : Role := ⟨"Namespaced", "claim", Machinery.claimFields⟩

def deriveVersion (role : Role) (v : CompositeVersion) : ResourceVersion :=
  let schema := (v.schema?.getD (Schema.typed "object")).asObject
  let schema := (schema.withinProperty "spec" role.fields).withinProperty "status"
    Machinery.statusFields
  { name := v.name
    served := v.served
    storage := v.referenceable
    validation := some ⟨some schema⟩
    subresources := some (.obj [("status", .obj [])])
    printerColumns := v.printerColumns }

def deriveNames (role : Role) (n : Names) : Names :=
  { n with
    listKind := some n.listKindName
    categories := Schema.addName n.categories role.category }

/-- The resource that is published under the given names in the given role. -/
def deriveAs (x : CompositeDefinition) (role : Role) (n : Names) : ResourceDefinition :=
  { metadata := { name := n.plural ++ "." ++ x.group }
    group := x.group
    names := deriveNames role n
    scope := role.scope
    versions := x.versions.map (deriveVersion role) }

structure Derived where
  composite : ResourceDefinition
  claim : Option ResourceDefinition
deriving BEq

def derive (x : CompositeDefinition) : Except DefinitionError Derived :=
  if x.group = "" ∨ x.names.kind = "" then
    .error (.invalid kindName x.metadata.name .groupAndKindRequired)
  else if x.referenceableVersion?.isNone then
    .error (.invalid kindName x.metadata.name .noReferenceableVersion)
  else .ok ⟨x.deriveAs composite x.names, x.claimNames.map (x.deriveAs claim)⟩

end CompositeDefinition

end ResourceModels
