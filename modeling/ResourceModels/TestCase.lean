import ResourceModels.Definition
import ResourceModels.Definition.Reading
import ResourceModels.Fault

/-!
Tests of compositions and tests of a whole control plane, as the items of rendered documents. An
item is told by its kind; in lenient mode items that are no tests, or no well-formed ones, are
passed over.
-/

namespace ResourceModels

open Yaml (Value)
open Schema (fieldOf textField listField)

/-- Why a document gives no test cases. -/
inductive TestCaseError
  | malformedText
  | missingItems
  | malformed (kind reason : String)
  | unrecognized (kind : Option String)
  | invalid (kind name : String) (problems : List String)
deriving DecidableEq, Repr

instance : Fault TestCaseError where
  code
    | .malformedText => "DECODE_001"
    | .missingItems => "DECODE_002"
    | .malformed .. => "DECODE_003"
    | .unrecognized _ => "DECODE_004"
    | .invalid .. => "DECODE_005"
  category _ := "decode"
  message
    | .malformedText => "rendered output is not valid YAML: " ++ Yaml.ReadError.malformed.message
    | .missingItems => "rendered output must contain an 'items' list"
    | .malformed kind reason => "failed to decode " ++ kind ++ ": " ++ reason
    | .unrecognized kind => "unrecognized item kind " ++ Text.quotedOption kind
    | .invalid kind name problems =>
      "invalid " ++ kind ++ " " ++ Text.quoted name ++ ": " ++ Text.join "; " problems

/-- What becomes of items that are no well-formed tests. -/
inductive DecodeMode
  | lenient
  | strict
deriving DecidableEq, Repr

namespace DecodeMode

def name : DecodeMode → String
  | .lenient => "lenient"
  | .strict => "strict"

def parse (s : String) : Except String DecodeMode :=
  if s = "lenient" then .ok .lenient
  else if s = "strict" then .ok .strict
  else .error ("unknown decode mode '" ++ s ++ "'")

end DecodeMode

structure CompositionTest where
  apiVersion : String := ""
  kind : String := ""
  metadata : Metadata := {}
  timeoutSeconds : Option Nat := none
  validate? : Option Bool := none
  xr : Option Json := none
  xrPath : Option String := none
  xrd : Option Json := none
  xrdPath : Option String := none
  composition : Option Json := none
  compositionPath : Option String := none
  observedResources : List Json := []
  extraResources : List Json := []
  context : List Json := []
  assert : List Json := []
deriving BEq, Inhabited

structure Upgrade where
  channel : Option String := none
deriving BEq, Inhabited

structure Crossplane where
  version : Option String := none
  autoUpgrade : Option Upgrade := none
deriving BEq, Inhabited

structure EndToEndTest where
  apiVersion : String := ""
  kind : String := ""
  metadata : Metadata := {}
  crossplane : Option Crossplane := none
  timeoutSeconds : Option Nat := none
  skipDelete : Option Bool := none
  defaultConditions : List String := []
  manifests : List Json := []
  extraResources : List Json := []
deriving BEq, Inhabited

inductive TestCase
  | composition (t : CompositionTest)
  | endToEnd (t : EndToEndTest)
deriving BEq, Inhabited

namespace CompositionTest

def kindName : String := "CompositionTest"

/-- Whether something is given both in place and by a path. -/
def isDoubled (value : Option Json) (path : Option String) : Bool :=
  (match value with
    | none => false
    | some .null => false
    | some _ => true) &&
  match path with
    | none => false
    | some p => p ≠ ""

def problems (t : CompositionTest) : List String :=
  (if isDoubled t.xr t.xrPath then ["only one of 'xr' or 'xrPath' may be specified"] else []) ++
  (if isDoubled t.xrd t.xrdPath then ["only one of 'xrd' or 'xrdPath' may be specified"] else []) ++
  (if isDoubled t.composition t.compositionPath then
    ["only one of 'composition' or 'compositionPath' may be specified"] else [])

def toJson (t : CompositionTest) : Json :=
  .obj [("apiVersion", .str t.apiVersion), ("kind", .str t.kind), ("metadata", t.metadata.toJson),
    ("spec", .obj (fieldOf "timeoutSeconds" (t.timeoutSeconds.map fun n => .int n) ++
      fieldOf "validate" (t.validate?.map .bool) ++ fieldOf "xr" t.xr ++
      textField "xrPath" t.xrPath ++ fieldOf "xrd" t.xrd ++ textField "xrdPath" t.xrdPath ++
      fieldOf "composition" t.composition ++ textField "compositionPath" t.compositionPath ++
      listField "observedResources" t.observedResources ++
      listField "extraResources" t.extraResources ++ listField "context" t.context ++
      listField "assert" t.assert))]

end CompositionTest

namespace EndToEndTest

def kindName : String := "E2ETest"

def problems (t : EndToEndTest) : List String :=
  (if t.manifests.isEmpty then ["spec.manifests must contain at least one manifest"] else []) ++
  (if t.timeoutSeconds = some 0 then ["spec.timeoutSeconds must be at least 1"] else [])

def crossplaneJson (c : Crossplane) : Json :=
  .obj (textField "version" c.version ++
    fieldOf "autoUpgrade" (c.autoUpgrade.map fun u => .obj (textField "channel" u.channel)))

def toJson (t : EndToEndTest) : Json :=
  .obj [("apiVersion", .str t.apiVersion), ("kind", .str t.kind), ("metadata", t.metadata.toJson),
    ("spec", .obj (fieldOf "crossplane" (t.crossplane.map crossplaneJson) ++
      fieldOf "timeoutSeconds" (t.timeoutSeconds.map fun n => .int n) ++
      fieldOf "skipDelete" (t.skipDelete.map .bool) ++
      listField "defaultConditions" (t.defaultConditions.map .str) ++
      [("manifests", .arr t.manifests)] ++ listField "extraResources" t.extraResources))]

end EndToEndTest

namespace TestCase

/-- The group and version of the kinds of tests. -/
def apiVersionName : String := "meta.dev.crossgen.io/v1alpha1"

def kindName : TestCase → String
  | .composition _ => CompositionTest.kindName
  | .endToEnd _ => EndToEndTest.kindName

def name : TestCase → String
  | .composition t => t.metadata.name
  | .endToEnd t => t.metadata.name

def problems : TestCase → List String
  | .composition t => t.problems
  | .endToEnd t => t.problems

def toJson : TestCase → Json
  | .composition t => t.toJson
  | .endToEnd t => t.toJson

def validate (t : TestCase) : Except TestCaseError Unit :=
  if t.problems.isEmpty then .ok () else .error (.invalid t.kindName t.name t.problems)

end TestCase

section

variable (d : Dialect)

def CompositionTest.takeSpec (t : CompositionTest) (key : String) (v : Value) :
    Except Mismatch CompositionTest :=
  let text := Decode.optional (Decode.text d)
  let any := Decode.optional (Decode.json d)
  let list := Decode.list d (Decode.json d)
  match key with
  | "timeoutSeconds" => do
    return { t with timeoutSeconds := ← Decode.optional (Decode.word d 64) v }
  | "validate" => do return { t with validate? := ← Decode.optional (Decode.bool d) v }
  | "xr" => do return { t with xr := ← any v }
  | "xrPath" => do return { t with xrPath := ← text v }
  | "xrd" => do return { t with xrd := ← any v }
  | "xrdPath" => do return { t with xrdPath := ← text v }
  | "composition" => do return { t with composition := ← any v }
  | "compositionPath" => do return { t with compositionPath := ← text v }
  | "observedResources" => do return { t with observedResources := ← list v }
  | "extraResources" => do return { t with extraResources := ← list v }
  | "context" => do return { t with context := ← list v }
  | "assert" => do return { t with assert := ← list v }
  | _ => .ok t

def CompositionTest.specFields : List String :=
  ["timeoutSeconds", "validate", "xr", "xrPath", "xrd", "xrdPath", "composition",
    "compositionPath", "observedResources", "extraResources", "context", "assert"]

def CompositionTest.take (t : CompositionTest) (key : String) (v : Value) :
    Except Mismatch CompositionTest :=
  match key with
  | "apiVersion" => do return { t with apiVersion := ← Decode.text d v }
  | "kind" => do return { t with kind := ← Decode.text d v }
  | "metadata" => do return { t with metadata := ← Metadata.ofValue d v }
  | "spec" => do
    return (← Decode.record d "CompositionTestSpec" specFields (takeSpec d) t v).1
  | _ => .ok t

def CompositionTest.ofValue (v : Value) : Except Mismatch CompositionTest := do
  return (← Decode.record d "CompositionTest" ResourceDefinition.outerFields (take d) {} v).1

def Upgrade.ofValue (v : Value) : Except Mismatch Upgrade := do
  let take (u : Upgrade) (key : String) (v : Value) : Except Mismatch Upgrade :=
    match key with
    | "channel" => do return ⟨← Decode.optional (Decode.text d) v⟩
    | _ => .ok u
  return (← Decode.record d "AutoUpgrade" ["channel"] take {} v).1

def Crossplane.ofValue (v : Value) : Except Mismatch Crossplane := do
  let take (c : Crossplane) (key : String) (v : Value) : Except Mismatch Crossplane :=
    match key with
    | "version" => do return { c with version := ← Decode.optional (Decode.text d) v }
    | "autoUpgrade" => do
      return { c with autoUpgrade := ← Decode.optional (Upgrade.ofValue d) v }
    | _ => .ok c
  return (← Decode.record d "CrossplaneSpec" ["version", "autoUpgrade"] take {} v).1

def EndToEndTest.takeSpec (t : EndToEndTest) (key : String) (v : Value) :
    Except Mismatch EndToEndTest :=
  let list := Decode.list d (Decode.json d)
  match key with
  | "crossplane" => do return { t with crossplane := ← Decode.optional (Crossplane.ofValue d) v }
  | "timeoutSeconds" => do
    return { t with timeoutSeconds := ← Decode.optional (Decode.word d 64) v }
  | "skipDelete" => do return { t with skipDelete := ← Decode.optional (Decode.bool d) v }
  | "defaultConditions" => do
    return { t with defaultConditions := ← Decode.list d (Decode.text d) v }
  | "manifests" => do return { t with manifests := ← list v }
  | "extraResources" => do return { t with extraResources := ← list v }
  | _ => .ok t

def EndToEndTest.specFields : List String :=
  ["crossplane", "timeoutSeconds", "skipDelete", "defaultConditions", "manifests",
    "extraResources"]

def EndToEndTest.take (t : EndToEndTest) (key : String) (v : Value) :
    Except Mismatch EndToEndTest :=
  match key with
  | "apiVersion" => do return { t with apiVersion := ← Decode.text d v }
  | "kind" => do return { t with kind := ← Decode.text d v }
  | "metadata" => do return { t with metadata := ← Metadata.ofValue d v }
  | "spec" => do return (← Decode.record d "E2ETestSpec" specFields (takeSpec d) t v).1
  | _ => .ok t

def EndToEndTest.ofValue (v : Value) : Except Mismatch EndToEndTest := do
  return (← Decode.record d "E2ETest" ResourceDefinition.outerFields (take d) {} v).1

end

/-- What an item of a rendered document is. -/
inductive RenderedItem
  | test (t : TestCase)
  | unrecognized (kind : Option String)
  | malformed (kind reason : String)
deriving BEq

namespace RenderedItem

def ofReading (kind : String) : Except Mismatch TestCase → RenderedItem
  | .ok t => .test t
  | .error e => .malformed kind e.message

def ofJson (j : Json) : RenderedItem :=
  let kind := (j.get? "kind").bind Json.text?
  if kind = some CompositionTest.kindName then
    ofReading CompositionTest.kindName
      ((CompositionTest.ofValue .json (.ofJson j)).map .composition)
  else if kind = some EndToEndTest.kindName then
    ofReading EndToEndTest.kindName ((EndToEndTest.ofValue .json (.ofJson j)).map .endToEnd)
  else .unrecognized kind

end RenderedItem

namespace TestCase

/-- The tests among rendered items. In strict mode everything else is refused. -/
def ofItems (mode : DecodeMode) : List Json → Except TestCaseError (List TestCase)
  | [] => .ok []
  | j :: rest =>
    match RenderedItem.ofJson j, mode with
    | .test t, _ => do return t :: (← ofItems mode rest)
    | .unrecognized kind, .strict => .error (.unrecognized kind)
    | .malformed kind reason, .strict => .error (.malformed kind reason)
    | _, .lenient => ofItems mode rest

end TestCase

end ResourceModels
