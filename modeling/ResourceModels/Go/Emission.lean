import ResourceModels.Go.Declaration
import ResourceModels.Go.Preparation
import ResourceModels.Text.Printable

/-!
Go declarations for the components of a document. An object with properties becomes a struct, a text
with listed values an enumeration, all else another name for a type. Structs and enumerations within
a component are declared on their own. Components have the first claim on names; a type within one
takes a name that neither a component nor an earlier type has.
-/

namespace ResourceModels.Go

/-- Why there is no Go type for a schema. -/
inductive EmissionFault
  | foreignReference (reference : String)
  | danglingReference (reference : String)
  | unknownType (name : String)
  | duplicateType (name : String)
deriving DecidableEq, Repr

def EmissionFault.message : EmissionFault → String
  | .foreignReference reference => "unsupported reference " ++ reference
  | .danglingReference reference => "unresolved reference " ++ reference
  | .unknownType name => "unsupported type " ++ Text.quoted name
  | .duplicateType name => "duplicate type name " ++ name

/-- What has been written so far. A type is begun before the types of its fields are looked at, and
declared when they are known. -/
structure Emission where
  imports : Dict (Option String) := []
  begun : List String := []
  declarations : Dict Declaration := []

namespace Emission

abbrev Step (α : Type) := StateT Emission (Except EmissionFault) α

def addImport (path : String) (name : Option String) : Step Unit :=
  modify fun e => { e with imports := e.imports.insert path name }

/-- Begins a type. No name is begun twice. -/
def «begin» (name : String) : Step Unit := do
  if name ∈ (← get).begun then throw (.duplicateType name)
  modify fun e => { e with begun := name :: e.begun }

def declare (d : Declaration) : Step Unit :=
  modify fun e => { e with declarations := e.declarations.insert d.name d }

/-- Begins a type under a name that is still free. -/
def beginUnder (components : Dict String) (base : String) : Step String := do
  let name := unique ((← get).begun ++ Dict.values components) base
  «begin» name
  return name

def isIntOrText (k : Keywords) : Bool := k.extensionFlag "x-kubernetes-int-or-string"

def keepsUnknown (k : Keywords) : Bool := k.extensionFlag "x-kubernetes-preserve-unknown-fields"

/-- Whether a schema is an object with properties; one without a type counts as an object. -/
def isStruct (s : Schema) : Bool :=
  !s.properties.isEmpty && (s.keywords.typeName.isNone || s.keywords.isType "object")

/-- Whether a schema is a text without a format of which some values are listed. -/
def isEnumeration (k : Keywords) : Bool :=
  k.isType "string" && k.format.isNone && k.values.any fun v => v.text?.isSome

/-- Constants for the listed texts, with names that differ from each other. -/
def constants (typeName : String) (taken : List String) : List String → List Constant
  | [] => []
  | value :: rest =>
    let name := unique taken (typeName ++ if value = "" then "Empty" else exported value)
    ⟨name, value⟩ :: constants typeName (name :: taken) rest

def enumeration (typeName : String) (k : Keywords) : TypeBody :=
  .enumeration (constants typeName [] (k.values.filterMap Json.text?))

/-- The type that an extension spells out, and the import it needs. -/
def spelledOut? (k : Keywords) : Option (String × Option (String × Option String)) :=
  (k.extensionText? typeKey).map fun text =>
    let source := do
      let origin ← k.extension? importKey
      let path ← (origin.get? "path").bind Json.text?
      return (path, (origin.get? "name").bind Json.text?)
    (text, source)

def resolve (components : Dict String) (reference : String) : Step TypeExpr :=
  match Schema.refTarget? reference with
  | none => throw (.foreignReference reference)
  | some target =>
    match components.get? target with
    | none => throw (.danglingReference reference)
    | some name => return .declared name

/-- The name wanted for the type of a schema within a component. -/
def wantedName (k : Keywords) (hint : String) : String := (k.extensionText? typeNameKey).getD hint

/-- The types of texts, numbers and truth values. -/
def scalar? (k : Keywords) : Option TypeExpr :=
  match k.typeName with
  | some "string" =>
    match k.format with
    | some "date-time" => some .time
    | some "byte" => some (.slice (.builtin "byte"))
    | _ => some (.builtin "string")
  | some "integer" => some (.builtin (if k.format = some "int32" then "int32" else "int64"))
  | some "number" => some (.builtin (if k.format = some "float" then "float32" else "float64"))
  | some "boolean" => some (.builtin "bool")
  | _ => none

def fieldName (taken : List String) (property : String) : String :=
  let base := exported property
  unique taken (if base = "" then "Field" else base)

mutual

/-- The type of a schema. `hint` names a type that has to be declared for it, unless the schema has
a name of its own. -/
def typeOf (components : Dict String) : Schema → String → Step TypeExpr
  | ⟨k, properties, items, additional, allOf, anyOf, oneOf, not⟩, hint =>
    match spelledOut? k, k.reference with
    | some (text, source), _ => do
      if let some (path, name) := source then addImport path name
      return .written text
    | none, some reference => resolve components reference
    | none, none => do
      if properties.isEmpty then
        if let some type ← soleType components allOf hint then return type
      if isIntOrText k then return .any
      if isStruct ⟨k, properties, items, additional, allOf, anyOf, oneOf, not⟩ then
        let name ← beginUnder components (wantedName k hint)
        let fields ← fieldsOf components name k.required [] properties
        declare ⟨name, k.description.getD "", .struct fields⟩
        return .declared name
      if isEnumeration k then
        let name ← beginUnder components (wantedName k hint)
        declare ⟨name, k.description.getD "", enumeration name k⟩
        return .declared name
      if let some type := scalar? k then
        if type = .time then addImport "time" none
        return type
      match k.typeName with
      | none => return .any
      | some "array" => return .slice (← itemType components items hint)
      | some "object" =>
        if keepsUnknown k then return .map .any
        return .map (← extraType components additional (hint ++ "Value"))
      | some name => throw (.unknownType name)
termination_by structural s => s

/-- The type of the only member of a list of schemas, if there is just one. -/
def soleType (components : Dict String) : List Schema → String → Step (Option TypeExpr)
  | [], _ => return none
  | s :: rest, hint =>
    if rest.isEmpty then do return some (← typeOf components s hint) else return none
termination_by structural members => members

def itemType (components : Dict String) : Option Schema → String → Step TypeExpr
  | none, _ => return .any
  | some s, hint => typeOf components s hint
termination_by structural items => items

def extraType (components : Dict String) : Option (Extra Schema) → String → Step TypeExpr
  | none, _ => return .any
  | some (.flag _), _ => return .any
  | some (.schema s), hint => typeOf components s hint
termination_by structural additional => additional

/-- The fields of a struct in order of property. Only a required field is held by value and always
written. -/
def fieldsOf (components : Dict String) (typeName : String) (required taken : List String) :
    List (String × Schema) → Step (List Field)
  | [] => return []
  | (property, s) :: rest => do
    let name := fieldName taken property
    let type ← typeOf components s (shortName (typeName ++ name))
    let needed := decide (property ∈ required)
    let field : Field :=
      { name, property, omitEmpty := !needed
        type := if needed then type else type.optional
        comment := s.keywords.description.getD "" }
    return field :: (← fieldsOf components typeName required (name :: taken) rest)
termination_by structural properties => properties

end

def componentBody (components : Dict String) (name : String) (s : Schema) : Step TypeBody := do
  if isStruct s then
    return .struct (← fieldsOf components name s.keywords.required [] s.properties)
  if isEnumeration s.keywords then return enumeration name s.keywords
  return .alias (← typeOf components s (name ++ "Value"))

def declareComponent (components : Dict String) (component name : String) (s : Schema) :
    Step Unit := do
  «begin» name
  let body ← componentBody components name s
  declare ⟨name, s.keywords.description.getD ("defines model for " ++ component ++ "."), body⟩

/-- Names for components, in order: its own name for each, or a numbered form of it. -/
def componentNames (names : Dict String) : List (String × Schema) → Dict String
  | [] => names
  | (component, s) :: rest =>
    let name := unique (Dict.values names) (wantedName s.keywords (shortName component))
    componentNames (Dict.insert names component name) rest

/-- Declares the components in order. A failure is told with the component it arose in. -/
def declareAll (components : Dict String) (e : Emission) :
    List (String × Schema) → Except (String × EmissionFault) Emission
  | [] => .ok e
  | (component, s) :: rest =>
    let name := (components.get? component).getD component
    match (declareComponent components component name s).run e with
    | .ok (_, e) => declareAll components e rest
    | .error fault => .error (component, fault)

end Emission

/-- The Go file for the components of a document. -/
def emit (doc : OpenApi) (package : String) : Except (String × EmissionFault) SourceFile := do
  let components := Emission.componentNames [] doc.schemas
  let e ← Emission.declareAll components {} doc.schemas
  return ⟨package, doc.title, e.imports, e.declarations⟩

end ResourceModels.Go
