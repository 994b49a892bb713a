import ResourceModels.Definition.Reading
import ResourceModels.FileStore

/-!
The documents of a manifest file, told apart by their kind. A document that is null is passed over,
and the first document that cannot be read fails the whole file.
-/

namespace ResourceModels

open Yaml (Value)

/-- Why a document could not be read: as text, or as a value of its kind. -/
inductive DocumentFault
  | text (cause : Yaml.ReadError)
  | mismatch (cause : Mismatch)
deriving DecidableEq, Repr

def DocumentFault.message : DocumentFault → String
  | .text cause => cause.message
  | .mismatch cause => cause.message

/-- Why definitions could not be collected. -/
inductive DefinitionError
  | unreadable (path : String) (cause : FileError)
  | malformed (path : String) (cause : DocumentFault)
  | invalid (kind name : String) (fault : DefinitionFault)
deriving DecidableEq, Repr

instance : Fault DefinitionError where
  code
    | .unreadable .. => "SPEC_001"
    | .malformed .. => "SPEC_002"
    | .invalid .. => "SPEC_003"
  category _ := "spec"
  message
    | .unreadable path cause =>
      "failed to read file " ++ Text.quoted path ++ ": " ++ Fault.message cause
    | .malformed path cause =>
      "failed to parse file " ++ Text.quoted path ++ ": " ++ cause.message
    | .invalid kind name fault =>
      "invalid " ++ kind ++ " " ++ Text.quoted name ++ ": " ++ fault.message
  causes
    | .unreadable _ cause => Fault.trail cause
    | .malformed _ cause => [cause.message]
    | .invalid .. => []

inductive Manifest
  | resource (r : ResourceDefinition)
  | composite (x : CompositeDefinition)
  | other (kind : Option String)
deriving BEq

namespace Manifest

def kindOf (v : Value) : Except Mismatch (Option String) := do
  let take (p : Option String) (key : String) (v : Value) : Except Mismatch (Option String) :=
    match key with
    | "apiVersion" => do
      let _ ← Decode.optional (Decode.text .yaml) v
      return p
    | "kind" => Decode.optional (Decode.text .yaml) v
    | _ => .ok p
  return (← Decode.record .yaml "TypeMeta" ["apiVersion", "kind"] take none v).1

def ofValue (v : Value) : Except Mismatch Manifest := do
  let kind ← kindOf v
  if kind = some ResourceDefinition.kindName then
    return .resource (← ResourceDefinition.ofValue .yaml v)
  else if kind = some CompositeDefinition.kindName then
    return .composite (← CompositeDefinition.ofValue .yaml v)
  else return .other kind

/-- The manifest of a document, unless the document is null, with a tag or without. -/
def ofDocument : Except Yaml.ReadError Value → Except DocumentFault (Option Manifest)
  | .error e => .error (.text e)
  | .ok v =>
    match v.untag with
    | .null => .ok none
    | _ =>
      match ofValue v with
      | .ok m => .ok (some m)
      | .error e => .error (.mismatch e)

/-- The documents of a file in order. Bytes that are no text make one malformed document. -/
def documents (contents : ByteArray) : List (Except Yaml.ReadError Value) :=
  match Text.decode? contents with
  | some text => Value.stream text
  | none => [.error .malformed]

/-- The manifests of a file. The path is only used to report a failure. -/
def classify (path : String) (contents : ByteArray) : Except DefinitionError (List Manifest) :=
  match (documents contents).mapM ofDocument with
  | .ok manifests => .ok (manifests.filterMap id)
  | .error e => .error (.malformed path e)

end Manifest

end ResourceModels
