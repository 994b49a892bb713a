import ResourceModels.Schema
import ResourceModels.Schema.Writing
import ResourceModels.Yaml.Writing

/-!
Definitions of resources. A `ResourceDefinition` describes the versions of one resource; a
`CompositeDefinition` describes a composite resource and the claim by which it may be asked for,
and resource definitions are derived from it.
-/

/-! ## Definitions -/

namespace ResourceModels

structure Metadata where
  name : String := ""
  labels : Dict String := []
  annotations : Dict String := []
deriving BEq, DecidableEq, Inhabited

structure Names where
  kind : String
  plural : String := ""
  singular : Option String := none
  listKind : Option String := none
  shortNames : List String := []
  categories : List String := []
deriving BEq, DecidableEq, Inhabited

def Names.listKindName (n : Names) : String := n.listKind.getD (n.kind ++ "List")

/-- The validation of a version: a schema, which may be missing. -/
structure Validation where
  schema : Option Schema := none
deriving BEq, Inhabited

structure ResourceVersion where
  name : String
  served : Bool := false
  storage : Bool := false
  validation : Option Validation := none
  subresources : Option Json := none
  printerColumns : List Json := []
deriving BEq, Inhabited

def ResourceVersion.schema? (v : ResourceVersion) : Option Schema := v.validation.bind (·.schema)

namespace ResourceDefinition

def kindName : String := "CustomResourceDefinition"

def apiVersionName : String := "apiextensions.k8s.io/v1"

end ResourceDefinition

structure ResourceDefinition where
  apiVersion : String := ResourceDefinition.apiVersionName
  kind : String := ResourceDefinition.kindName
  metadata : Metadata := {}
  group : String
  names : Names
  scope : String := "Namespaced"
  versions : List ResourceVersion := []
deriving BEq, Inhabited

def ResourceDefinition.servedVersions (r : ResourceDefinition) : List ResourceVersion :=
  r.versions.filter (·.served)

structure CompositeVersion where
  name : String
  served : Bool := false
  referenceable : Bool := false
  validation : Option Validation := none
  printerColumns : List Json := []
deriving BEq, Inhabited

def CompositeVersion.schema? (v : CompositeVersion) : Option Schema := v.validation.bind (·.schema)

structure CompositeDefinition where
  apiVersion : String := ""
  kind : String := ""
  metadata : Metadata := {}
  group : String
  names : Names
  claimNames : Option Names := none
  versions : List CompositeVersion := []
deriving BEq, Inhabited

namespace CompositeDefinition

def kindName : String := "CompositeResourceDefinition"

/-- The first version that is served and may be referred to. -/
def referenceableVersion? (x : CompositeDefinition) : Option CompositeVersion :=
  x.versions.find? fun v => v.served && v.referenceable

end CompositeDefinition

/-- Why a definition cannot be used. -/
inductive DefinitionFault
  | groupAndKindRequired
  | noReferenceableVersion
deriving DecidableEq, Repr

def DefinitionFault.message : DefinitionFault → String
  | .groupAndKindRequired => "spec.group and spec.names.kind are required"
  | .noReferenceableVersion => "no served and referenceable version"

end ResourceModels

/-!
## Written definitions

Definitions as JSON values, with their fields in the order in which they are written, and as YAML
text.
-/

namespace ResourceModels

open Schema (fieldOf textField listField)

def textDictField (name : String) (texts : Dict String) : List (String × Json) :=
  if texts.isEmpty then [] else [(name, .obj (Dict.mapValues Json.str texts))]

def Metadata.toJson (m : Metadata) : Json :=
  .obj (("name", .str m.name) :: textDictField "labels" m.labels ++
    textDictField "annotations" m.annotations)

def Names.toJson (n : Names) : Json :=
  .obj ([("kind", .str n.kind), ("plural", .str n.plural)] ++ textField "singular" n.singular ++
    textField "listKind" n.listKind ++ listField "shortNames" (n.shortNames.map .str) ++
    listField "categories" (n.categories.map .str))

/-- A missing schema is written as null. -/
def Validation.toJson (v : Validation) : Json :=
  .obj [("openAPIV3Schema", (v.schema.map Schema.toJson).getD .null)]

def ResourceVersion.toJson (v : ResourceVersion) : Json :=
  .obj ([("name", .str v.name), ("served", .bool v.served), ("storage", .bool v.storage)] ++
    fieldOf "schema" (v.validation.map Validation.toJson) ++
    fieldOf "subresources" v.subresources ++
    listField "additionalPrinterColumns" v.printerColumns)

def ResourceDefinition.toJson (r : ResourceDefinition) : Json :=
  .obj [("apiVersion", .str r.apiVersion), ("kind", .str r.kind), ("metadata", r.metadata.toJson),
    ("spec", .obj [("group", .str r.group), ("names", r.names.toJson), ("scope", .str r.scope),
      ("versions", .arr (r.versions.map ResourceVersion.toJson))])]

def ResourceDefinition.toYaml (r : ResourceDefinition) : String := Yaml.write r.toJson

def CompositeVersion.toJson (v : CompositeVersion) : Json :=
  .obj ([("name", .str v.name), ("served", .bool v.served),
      ("referenceable", .bool v.referenceable)] ++
    fieldOf "schema" (v.validation.map Validation.toJson) ++
    listField "additionalPrinterColumns" v.printerColumns)

def CompositeDefinition.toJson (x : CompositeDefinition) : Json :=
  .obj [("apiVersion", .str x.apiVersion), ("kind", .str x.kind), ("metadata", x.metadata.toJson),
    ("spec", .obj ([("group", .str x.group), ("names", x.names.toJson)] ++
      fieldOf "claimNames" (x.claimNames.map Names.toJson) ++
      [("versions", .arr (x.versions.map CompositeVersion.toJson))]))]

end ResourceModels
