import ResourceModels.OpenApi
import ResourceModels.Text
import ResourceModels.Text.Lower
import ResourceModels.Vocabulary

/-!
What is settled in a document before Go is written for it: how types are called, that numbers are
whole and all fields optional, and that the shared vocabulary is taken from a package of its own.
The decisions are kept in extensions of the schemas.
-/

/-!
## Names

Names of Go types, fields and files. An exported name is made of the letters and digits of any text;
the short name of a component drops what stands before its last dot; a name that is taken gets the
first free number from 2 on.
-/

namespace ResourceModels.Go

/-- The letters and digits of a part of a name, the first as a capital. -/
def capitalized : List Char → List Char
  | [] => []
  | c :: rest => c.toUpper :: rest

/-- An exported Go identifier for any text; it is empty if the text has no ASCII letter or digit. -/
def exported (name : String) : String :=
  let parts := Text.splitList (fun c => !c.isAlphanum) name.toList
  match parts.flatMap capitalized with
  | [] => ""
  | c :: rest => if c.isDigit then String.ofList ('N' :: c :: rest) else String.ofList (c :: rest)

/-- The exported name of a dotted name without what stands before its last dot. Where nothing would
be left, or a digit changes how the name begins, the whole name stays. -/
def shortName (name : String) : String :=
  let full := exported name
  match Text.splitLast? '.' name with
  | none => full
  | some (before, _) =>
    match Text.after? (exported before) full with
    | some rest => if rest = "" then full else rest
    | none => full

/-- The names that may stand in for a taken one. -/
def numbered (base : String) (count : Nat) : List String :=
  (List.range count).map fun n => base ++ toString (n + 2)

/-- The name itself if it is free, else the first free one of its numbered forms. One more of them
is looked at than there are taken names. -/
def unique (taken : List String) (base : String) : String :=
  if base ∉ taken then base
  else ((numbered base (taken.length + 1)).find? (· ∉ taken)).getD base

/-- The file of a kind: its group from the last label to the first, its version and its name. -/
def modelPath (group kind version : String) : String :=
  let labels := (Text.split (· = '.') group).filter (· ≠ "")
  "models/" ++ Text.join "/" labels.reverse ++ "/" ++ version ++ "/" ++ Text.lower kind ++ ".go"

end ResourceModels.Go

/-! ## Documents -/

namespace ResourceModels.Go

/-- The extension that names the type of a schema. -/
def typeNameKey : String := "x-go-type-name"

/-- The extension that spells out the type of a schema. -/
def typeKey : String := "x-go-type"

/-- The extension that tells where a type comes from. -/
def importKey : String := "x-go-type-import"

def sharedPackage : String := "dev.crossgen.io/models/io/k8s/meta/v1"

/-- The name under which the shared package is used. -/
def sharedAlias : String := "metav1"

def Keywords.withTypeName (k : Keywords) (name : String) : Keywords :=
  k.setExtension typeNameKey (.str name)

mutual

/-- Names the schemas of properties: each after the name around it and its own. -/
def nameProperties (base : String) : List (String × Schema) → List (String × Schema)
  | [] => []
  | (property, s) :: rest =>
    (property, nameProperty (shortName (base ++ exported property)) s) :: nameProperties base rest
termination_by structural properties => properties

/-- Names a schema, its properties and the items of an array, which go by the same name. -/
def nameProperty (name : String) : Schema → Schema
  | ⟨k, properties, items, additional, allOf, anyOf, oneOf, not⟩ =>
    ⟨Keywords.withTypeName k name, nameProperties name properties, nameItems name items, additional,
      allOf, anyOf, oneOf, not⟩
termination_by structural s => s

/-- Names the items of an array and their properties; items of items keep their names. -/
def nameItems (name : String) : Option Schema → Option Schema
  | none => none
  | some ⟨k, properties, items, additional, allOf, anyOf, oneOf, not⟩ =>
    some ⟨Keywords.withTypeName k name, nameProperties name properties, items, additional, allOf,
      anyOf, oneOf, not⟩
termination_by structural items => items

end

/-- Names a component and the schemas of its properties. -/
def nameComponent (name : String) (s : Schema) : Schema :=
  { s with
    keywords := Keywords.withTypeName s.keywords (shortName name)
    properties := nameProperties (shortName name) s.properties }

def nameTypes (doc : OpenApi) : OpenApi :=
  { doc with schemas := doc.schemas.map fun c => (c.1, nameComponent c.1 c.2) }

def numbersAreWhole (doc : OpenApi) : OpenApi :=
  doc.mapKeywords fun k =>
    if k.isType "number" then k.setExtension typeKey (.str "int") else k

/-- Lets every field be left out. -/
def nothingRequired (doc : OpenApi) : OpenApi :=
  doc.mapKeywords fun k => { k with required := [] }

/-- The shared component that a schema refers to, by its own reference or else by the first one
within its `allOf`. -/
def sharedTarget? (s : Schema) : Option String :=
  let within := s.allOf.findSome? fun member => member.keywords.reference
  ((s.keywords.reference.or within).bind Schema.refTarget?).filter Vocabulary.isShared

def sharedImport : Json := .obj [("name", .str sharedAlias), ("path", .str sharedPackage)]

/-- Gives a schema that refers to a shared component the type of that name in the shared package. -/
def useShared (s : Schema) : Schema :=
  match sharedTarget? s with
  | none => s
  | some target =>
    let s := s.setExtension typeKey (.str (sharedAlias ++ "." ++ shortName target))
    { s.setExtension importKey sharedImport with allOf := [] }

def sharedFromPackage (doc : OpenApi) : OpenApi :=
  { doc with schemas := Dict.mapValues (Schema.mapNodes useShared) doc.schemas }

def withoutShared (doc : OpenApi) : OpenApi :=
  { doc with schemas := doc.schemas.filter fun c => !Vocabulary.isShared c.1 }

def componentsOnly (doc : OpenApi) : OpenApi := { doc with paths := [] }

/-- The document of the shared vocabulary, ready to be written. -/
def prepareShared (doc : OpenApi) : OpenApi :=
  nothingRequired (numbersAreWhole (nameTypes doc))

/-- The document of a kind, ready to be written. -/
def prepare (doc : OpenApi) : OpenApi :=
  componentsOnly (withoutShared (sharedFromPackage (prepareShared doc)))

end ResourceModels.Go
