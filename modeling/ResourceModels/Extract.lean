import ResourceModels.Manifest
import ResourceModels.OpenApi
import ResourceModels.Vocabulary

/-!
Documents of resources. Every served version with a schema has a document of its own: the schema of
the resource, that of its list, and the shared vocabulary, under names of group, version and kind.
-/

namespace ResourceModels

def componentName (group version kind : String) : String := group ++ "." ++ version ++ "." ++ kind

/-- A document with what it describes and the file it comes from. -/
structure Extract where
  group : String
  kind : String
  version : String
  source : String
  document : OpenApi
deriving BEq, Inhabited

def Extract.kindComponent (e : Extract) : String := componentName e.group e.version e.kind

namespace Extract

/-- The extension that states which group, version and kind a schema describes. -/
def identityKey : String := "x-kubernetes-group-version-kind"

def identity (group version kind : String) : Json :=
  .arr [.obj [("group", .str group), ("kind", .str kind), ("version", .str version)]]

/-- A property of a text, kept if it is there, with a default. -/
def withDefault (s : Schema) (name value : String) : Schema :=
  let p := (Dict.get? s.properties name).getD (Schema.typed "string")
  s.withProperty name { p with keywords := { p.keywords with default? := some (.str value) } }

def kindSchema (root : Schema) (group version kind : String) : Schema :=
  let s : Schema :=
    { root with
      keywords := { root.keywords with typeName := root.keywords.typeName.or (some "object") } }
  let s := withDefault (withDefault s "apiVersion" (group ++ "/" ++ version)) "kind" kind
  let s := s.withProperty "metadata"
    ((Schema.allOfRef (Vocabulary.nameOf "ObjectMeta")).withDescription
      "Standard object's metadata.")
  s.setExtension identityKey (identity group version kind)

def listSchema (kindName group version listKind : String) : Schema :=
  let s := (Schema.typed "object").withDescription (listKind ++ " is a list of " ++ kindName)
  let s := s.withProperty "apiVersion" (Schema.typed "string")
  let s := s.withProperty "kind" (Schema.typed "string")
  let s := s.withProperty "items" ((Schema.typed "array").withItems (Schema.ref kindName))
  let s := s.withProperty "metadata" (Schema.allOfRef (Vocabulary.nameOf "ListMeta"))
  (s.withRequired ["items"]).setExtension identityKey (identity group version listKind)

def listPath (listComponent : String) : Json :=
  let schema := Json.obj [("schema", .obj [("$ref", .str (Schema.componentRef listComponent))])]
  .obj [("get", .obj [("responses", .obj [("200", .obj [("content",
    .obj [("application/json", schema)])])])])]

def path (r : ResourceDefinition) (version : String) : String :=
  let base := "/apis/" ++ r.group ++ "/" ++ version ++ "/"
  if r.scope = "Cluster" then base ++ r.names.plural
  else base ++ "namespaces/\x7bnamespace\x7d/" ++ r.names.plural

def describe (r : ResourceDefinition) (version : String) (root : Schema) : OpenApi :=
  let kind := r.names.kind
  let kindName := componentName r.group version kind
  let listKind := r.names.listKindName
  let listName := componentName r.group version listKind
  let own : Dict Schema := Dict.ofList
    [(kindName, kindSchema root r.group version kind),
      (listName, listSchema kindName r.group version listKind)]
  { title := r.metadata.name ++ " " ++ version
    revision := version
    paths := [(path r version, listPath listName)]
    schemas := Dict.insertAll own Vocabulary.schemas }

end Extract

namespace ResourceDefinition

/-- The documents of a resource by version, in order of the names of the versions. -/
def documents (r : ResourceDefinition) : Except DefinitionError (Dict OpenApi) :=
  if r.group = "" ∨ r.names.kind = "" then
    .error (.invalid kindName r.metadata.name .groupAndKindRequired)
  else
    .ok (Dict.ofList (r.servedVersions.filterMap fun v =>
      v.schema?.map fun root => (v.name, Extract.describe r v.name root)))

end ResourceDefinition

end ResourceModels
