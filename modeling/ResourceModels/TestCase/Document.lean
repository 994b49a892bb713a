import ResourceModels.Decode.Document
import ResourceModels.TestCase

/-!
Reading tests from texts: those among the items of a rendered document, and the end-to-end test of a
manifest file.
-/

namespace ResourceModels

open Yaml (Event Walk)
open Yaml.Walk (text flag word json optional list dict record)

def readDocument (contents : ByteArray) (node : Event → Walk α) : Except Yaml.ReadError α :=
  match Text.decode? contents with
  | some text => Yaml.Document.readOnly text node
  | none => .error .malformed

/-- The tests of a rendered document, which has to list items. -/
def TestCase.decode (contents : ByteArray) (mode : DecodeMode) :
    Except TestCaseError (List TestCase) :=
  match readDocument contents json with
  | .error _ => .error .malformedText
  | .ok j =>
    match (j.get? "items").bind Json.items? with
    | some items => ofItems mode items
    | none => .error .missingItems

def Metadata.ofEvent : Event → Walk Metadata :=
  let take (m : Metadata) (key : String) (e : Event) : Walk Metadata :=
    match key with
    | "name" => do return { m with name := ← text e }
    | "labels" => do return { m with labels := ← dict text e }
    | _ => do return { m with annotations := ← dict text e }
  record ["name", "labels", "annotations"] take {}

def Upgrade.ofEvent : Event → Walk Upgrade :=
  record ["channel"] (fun _ _ e => do return ⟨← optional text e⟩) {}

def Crossplane.ofEvent : Event → Walk Crossplane :=
  let take (c : Crossplane) (key : String) (e : Event) : Walk Crossplane :=
    match key with
    | "version" => do return { c with version := ← optional text e }
    | _ => do return { c with autoUpgrade := ← optional Upgrade.ofEvent e }
  record ["version", "autoUpgrade"] take {}

namespace EndToEndTest

def takeNextSpec (t : EndToEndTest) (key : String) (e : Event) : Walk EndToEndTest :=
  match key with
  | "crossplane" => do return { t with crossplane := ← optional Crossplane.ofEvent e }
  | "timeoutSeconds" => do return { t with timeoutSeconds := ← optional word e }
  | "skipDelete" => do return { t with skipDelete := ← optional flag e }
  | "defaultConditions" => do return { t with defaultConditions := ← list text e }
  | "manifests" => do return { t with manifests := ← list json e }
  | _ => do return { t with extraResources := ← list json e }

def ofEvent : Event → Walk EndToEndTest :=
  let take (t : EndToEndTest) (key : String) (e : Event) : Walk EndToEndTest :=
    match key with
    | "apiVersion" => do return { t with apiVersion := ← text e }
    | "kind" => do return { t with kind := ← text e }
    | "metadata" => do return { t with metadata := ← Metadata.ofEvent e }
    | _ => record specFields takeNextSpec t e
  record ResourceDefinition.outerFields take {}

def parse (contents : ByteArray) : Except TestCaseError EndToEndTest :=
  match readDocument contents ofEvent with
  | .error _ => .error (.malformed kindName Yaml.ReadError.malformed.message)
  | .ok t =>
    if t.kind ≠ kindName then .error (.unrecognized (some t.kind))
    else do
      (TestCase.endToEnd t).validate
      return t

end EndToEndTest

end ResourceModels
