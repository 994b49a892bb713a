import ResourceModels.Proofs.Definition.Reading
import ResourceModels.TestCase

/-!
# Tests that are written and read again

A test in order is read again as itself once it is written with the fields of every object in order
of key. Its kind tells which sort of test to read.
-/

namespace ResourceModels

open Yaml (Value)
open Decode (written record_written sorted_written takeSlot_blank takeSlot_some
  foldlM_slots_cons)
open Schema (fieldOf textField slot filled? filledMap? listField_eq slot_text slot_texts slot_json
  slot_values)

variable {d : Dialect}

/-- A value that may be missing is in order, and null only by being missing. -/
def Json.IsPresent (x : Option Json) : Prop := ∀ j ∈ x, j.InOrder ∧ j ≠ .null

namespace Json

theorem map_sorted {x : Option Json} (h : ∀ j ∈ x, j.InOrder) : x.map sorted = x := by
  cases x with
  | none => rfl
  | some j => rw [Option.map_some, h j rfl]

theorem sorted_filled {values : List Json} (h : ∀ j ∈ values, j.InOrder) :
    (filled? values).map sorted = filled? values := by
  unfold filled?
  split
  · rfl
  · rw [Option.map_some, inOrder_arr h]

end Json

namespace Schema

theorem slot_sorted_text (x : Option String) :
    slot (Decode.optional (Decode.text d)) none ((x.map .str).map Json.sorted) = .ok x := by
  cases x <;> rfl

theorem slot_sorted_bool (x : Option Bool) :
    slot (Decode.optional (Decode.bool d)) none ((x.map .bool).map Json.sorted) = .ok x := by
  cases x <;> rfl

theorem slot_sorted_word {bits : Nat} {x : Option Nat} (h : ∀ n ∈ x, n < Nat.pow 2 bits) :
    slot (Decode.optional (Decode.word d bits)) none
      ((x.map fun n => Json.int n).map Json.sorted) = .ok x := by
  cases x with
  | none => rfl
  | some n =>
    have hrange : (0 : Int) ≤ n ∧ (n : Int) < Nat.pow 2 bits :=
      ⟨Int.natCast_nonneg n, Int.ofNat_lt.mpr (h n rfl)⟩
    have hword : Decode.word d bits (.int n) = .ok n := if_pos hrange
    exact congrArg (fun read => read >>= fun m => pure (some m)) hword

theorem slot_sorted_json {x : Option Json} (h : Json.IsPresent x) :
    slot (Decode.optional (Decode.json d)) none (x.map Json.sorted) = .ok x := by
  have horder : ∀ j ∈ x, j.InOrder := fun j hj => (h j hj).1
  have hnull : x ≠ some .null := fun hx => (h .null hx).2 rfl
  rw [Json.map_sorted horder, slot_json horder, bind_present?_eq_self_iff.mpr hnull]

theorem slot_sorted_values {values : List Json} (h : ∀ j ∈ values, j.InOrder) :
    slot (Decode.list d (Decode.json d)) [] ((filled? values).map Json.sorted) = .ok values := by
  rw [Json.sorted_filled h, slot_values h]

theorem slot_sorted_texts (texts : List String) :
    slot (Decode.list d (Decode.text d)) [] ((filled? (texts.map .str)).map Json.sorted) =
      .ok texts := by
  have htexts : ∀ j ∈ texts.map Json.str, j.InOrder := List.forall_mem_map.mpr fun _ _ => rfl
  rw [Json.sorted_filled htexts, slot_texts]

theorem slot_sorted_dict {texts : Dict String} (h : Dict.Sorted texts) :
    slot (Decode.dict d (Decode.text d)) []
      ((filledMap? (Dict.mapValues Json.str texts)).map Json.sorted) = .ok texts := by
  have hobj : (Json.obj (Dict.mapValues Json.str texts)).InOrder := by
    rw [← (h.mapValues Json.str).ofList_eq]
    exact Json.inOrder_obj_ofList (List.forall_mem_map.mpr fun _ _ => rfl)
  have hfilled : (filledMap? (Dict.mapValues Json.str texts)).map Json.sorted =
      filledMap? (Dict.mapValues Json.str texts) := by
    unfold filledMap?
    split
    · rfl
    · rw [Option.map_some, hobj]
  rw [hfilled, Decode.dict_written h]

end Schema

open Schema

namespace Metadata

/-- What is written of metadata under a key. -/
def written? (m : Metadata) : String → Option Json
  | "name" => some (.str m.name)
  | "labels" => filledMap? (Dict.mapValues Json.str m.labels)
  | "annotations" => filledMap? (Dict.mapValues Json.str m.annotations)
  | _ => none

theorem toJson_eq_written (m : Metadata) : m.toJson =
    .obj (written (["name", "labels", "annotations"].map fun key => (key, m.written? key))) :=
  m.toJson_eq

theorem ofValue_sorted {m : Metadata} (hlabels : Dict.Sorted m.labels)
    (hannotations : Dict.Sorted m.annotations) :
    Metadata.ofValue d (.ofJson m.toJson.sorted) = .ok m := by
  have hrun : (["annotations", "labels", "name"].map fun key =>
      (key, (m.written? key).map Json.sorted)).foldlM (Decode.takeSlot (take d)) {} = .ok m :=
    foldlM_slots_cons (takeSlot_blank (fun _ => rfl) rfl (slot_sorted_dict hannotations)) <|
      foldlM_slots_cons (takeSlot_blank (fun _ => rfl) rfl (slot_sorted_dict hlabels)) <|
      foldlM_slots_cons rfl rfl
  rw [toJson_eq_written, sorted_written ["annotations", "labels", "name"] (by decide)
    (by decide)]
  exact Outcome.bind_eq_ok.mpr ⟨_, record_written _ (by simp) hrun, rfl⟩

end Metadata

/-- The fields outside of `spec` of a test, with those of each part in order of key. -/
theorem sorted_outer (apiVersion kind : String) (metadata spec : Json) :
    (Json.obj [("apiVersion", .str apiVersion), ("kind", .str kind), ("metadata", metadata),
        ("spec", spec)]).sorted =
      .obj (written [("apiVersion", some (.str apiVersion)), ("kind", some (.str kind)),
        ("metadata", some metadata.sorted), ("spec", some spec.sorted)]) := by
  have hsorted : Dict.Sorted [("apiVersion", Json.str apiVersion), ("kind", Json.str kind),
      ("metadata", metadata), ("spec", spec)] := by
    refine List.pairwise_map.mp
      (?_ : List.Pairwise (· < ·) ["apiVersion", "kind", "metadata", "spec"])
    decide
  rw [Json.sorted_obj, hsorted.ofList_eq]
  rfl

namespace CompositionTest

/-- Every object in a test is in order, its values that may be missing are not null, and its number
is one of 64 bits. -/
structure InOrder (t : CompositionTest) : Prop where
  labels : Dict.Sorted t.metadata.labels
  annotations : Dict.Sorted t.metadata.annotations
  timeoutSeconds : ∀ n ∈ t.timeoutSeconds, n < Nat.pow 2 64
  xr : Json.IsPresent t.xr
  xrd : Json.IsPresent t.xrd
  composition : Json.IsPresent t.composition
  observedResources : ∀ j ∈ t.observedResources, j.InOrder
  extraResources : ∀ j ∈ t.extraResources, j.InOrder
  context : ∀ j ∈ t.context, j.InOrder
  assert : ∀ j ∈ t.assert, j.InOrder

/-- What is written below `spec` under a key. -/
def specWritten? (t : CompositionTest) : String → Option Json
  | "timeoutSeconds" => t.timeoutSeconds.map fun n => .int n
  | "validate" => t.validate?.map .bool
  | "xr" => t.xr
  | "xrPath" => t.xrPath.map .str
  | "xrd" => t.xrd
  | "xrdPath" => t.xrdPath.map .str
  | "composition" => t.composition
  | "compositionPath" => t.compositionPath.map .str
  | "observedResources" => filled? t.observedResources
  | "extraResources" => filled? t.extraResources
  | "context" => filled? t.context
  | "assert" => filled? t.assert
  | _ => none

/-- The fields below `spec` in order of key. -/
def sortedFields : List String :=
  ["assert", "composition", "compositionPath", "context", "extraResources", "observedResources",
    "timeoutSeconds", "validate", "xr", "xrPath", "xrd", "xrdPath"]

def specJson (t : CompositionTest) : Json :=
  .obj (written (specFields.map fun key => (key, t.specWritten? key)))

theorem toJson_eq (t : CompositionTest) : t.toJson =
    .obj [("apiVersion", .str t.apiVersion), ("kind", .str t.kind),
      ("metadata", t.metadata.toJson), ("spec", t.specJson)] := by
  simp only [toJson, specJson, specFields, written, specWritten?, textField, listField_eq,
    List.map_cons, List.map_nil, List.flatMap_cons, List.flatMap_nil, List.append_assoc,
    List.append_nil]

theorem record_sorted {t : CompositionTest} (h : t.InOrder) :
    Decode.record d "CompositionTestSpec" specFields (takeSpec d)
      { apiVersion := t.apiVersion, kind := t.kind, metadata := t.metadata }
      (.ofJson t.specJson.sorted) = .ok (t, .named) := by
  have hrun : (sortedFields.map fun key =>
      (key, (t.specWritten? key).map Json.sorted)).foldlM (Decode.takeSlot (takeSpec d))
        { apiVersion := t.apiVersion, kind := t.kind, metadata := t.metadata } = .ok t :=
    foldlM_slots_cons (takeSlot_blank (fun _ => rfl) rfl (slot_sorted_values h.assert)) <|
      foldlM_slots_cons (takeSlot_blank (fun _ => rfl) rfl (slot_sorted_json h.composition)) <|
      foldlM_slots_cons (takeSlot_blank (fun _ => rfl) rfl (slot_sorted_text _)) <|
      foldlM_slots_cons (takeSlot_blank (fun _ => rfl) rfl (slot_sorted_values h.context)) <|
      foldlM_slots_cons (takeSlot_blank (fun _ => rfl) rfl
        (slot_sorted_values h.extraResources)) <|
      foldlM_slots_cons (takeSlot_blank (fun _ => rfl) rfl
        (slot_sorted_values h.observedResources)) <|
      foldlM_slots_cons (takeSlot_blank (fun _ => rfl) rfl (slot_sorted_word h.timeoutSeconds)) <|
      foldlM_slots_cons (takeSlot_blank (fun _ => rfl) rfl (slot_sorted_bool _)) <|
      foldlM_slots_cons (takeSlot_blank (fun _ => rfl) rfl (slot_sorted_json h.xr)) <|
      foldlM_slots_cons (takeSlot_blank (fun _ => rfl) rfl (slot_sorted_text _)) <|
      foldlM_slots_cons (takeSlot_blank (fun _ => rfl) rfl (slot_sorted_json h.xrd)) <|
      foldlM_slots_cons (takeSlot_blank (fun _ => rfl) rfl (slot_sorted_text _)) rfl
  rw [specJson, sorted_written sortedFields (by decide) (by decide)]
  exact record_written _ (by simp [sortedFields]) hrun

theorem ofValue_sorted {t : CompositionTest} (h : t.InOrder) :
    CompositionTest.ofValue d (.ofJson t.toJson.sorted) = .ok t := by
  have hrun : [("apiVersion", some (.str t.apiVersion)), ("kind", some (.str t.kind)),
      ("metadata", some t.metadata.toJson.sorted), ("spec", some t.specJson.sorted)].foldlM
        (Decode.takeSlot (take d)) {} = .ok t :=
    foldlM_slots_cons rfl <| foldlM_slots_cons rfl <|
      foldlM_slots_cons (takeSlot_some (S := CompositionTest)
        (fun x => { apiVersion := t.apiVersion, kind := t.kind, metadata := x }) (fun _ => rfl)
        (Metadata.ofValue_sorted h.labels h.annotations)) <|
      foldlM_slots_cons (takeSlot_some (fun x => x.1) (fun _ => rfl) (record_sorted h)) rfl
  rw [toJson_eq, sorted_outer]
  exact Outcome.bind_eq_ok.mpr ⟨_, record_written _ (by simp) hrun, rfl⟩

/-- A test of a composition that is written is told by its kind and read again. -/
theorem ofJson_sorted {t : CompositionTest} (h : t.InOrder) (hkind : t.kind = kindName) :
    RenderedItem.ofJson t.toJson.sorted = .test (.composition t) := by
  have hfound : (t.toJson.sorted.get? "kind").bind Json.text? = some kindName := by
    rw [toJson_eq, sorted_outer, ← hkind]
    rfl
  rw [RenderedItem.ofJson, hfound]
  change RenderedItem.ofReading _ ((ofValue .json _).map TestCase.composition) = _
  rw [ofValue_sorted h]
  rfl

end CompositionTest

namespace Upgrade

def toJson (u : Upgrade) : Json := .obj (textField "channel" u.channel)

theorem ofValue_sorted (u : Upgrade) : Upgrade.ofValue d (.ofJson u.toJson.sorted) = .ok u := by
  rcases u with ⟨_ | channel⟩ <;> rfl

end Upgrade

namespace Crossplane

/-- What is written of an installation under a key. -/
def written? (c : Crossplane) : String → Option Json
  | "version" => c.version.map .str
  | "autoUpgrade" => c.autoUpgrade.map Upgrade.toJson
  | _ => none

theorem ofValue_sorted (c : Crossplane) :
    Crossplane.ofValue d (.ofJson (EndToEndTest.crossplaneJson c).sorted) = .ok c := by
  have hupgrade : slot (Decode.optional (Upgrade.ofValue d)) none
      ((c.autoUpgrade.map Upgrade.toJson).map Json.sorted) = .ok c.autoUpgrade := by
    rcases c.autoUpgrade with _ | ⟨_ | channel⟩ <;> rfl
  have hjson : EndToEndTest.crossplaneJson c =
      .obj (written (["version", "autoUpgrade"].map fun key => (key, c.written? key))) := by
    simp only [EndToEndTest.crossplaneJson, written, written?, textField, List.map_cons,
      List.map_nil, List.flatMap_cons, List.flatMap_nil, List.append_nil]
    rfl
  rw [hjson, sorted_written ["autoUpgrade", "version"] (by decide) (by decide)]
  refine Outcome.bind_eq_ok.mpr ⟨_, record_written _ (by simp) ?_, rfl⟩
  exact foldlM_slots_cons (takeSlot_blank (fun _ => rfl) rfl hupgrade) <|
    foldlM_slots_cons (takeSlot_blank (fun _ => rfl) rfl (slot_sorted_text _)) rfl

end Crossplane

namespace EndToEndTest

/-- Every object in a test is in order, and its number is one of 64 bits. -/
structure InOrder (t : EndToEndTest) : Prop where
  labels : Dict.Sorted t.metadata.labels
  annotations : Dict.Sorted t.metadata.annotations
  timeoutSeconds : ∀ n ∈ t.timeoutSeconds, n < Nat.pow 2 64
  manifests : ∀ j ∈ t.manifests, j.InOrder
  extraResources : ∀ j ∈ t.extraResources, j.InOrder

/-- What is written below `spec` under a key. -/
def specWritten? (t : EndToEndTest) : String → Option Json
  | "crossplane" => t.crossplane.map crossplaneJson
  | "timeoutSeconds" => t.timeoutSeconds.map fun n => .int n
  | "skipDelete" => t.skipDelete.map .bool
  | "defaultConditions" => filled? (t.defaultConditions.map .str)
  | "manifests" => some (.arr t.manifests)
  | "extraResources" => filled? t.extraResources
  | _ => none

/-- The fields below `spec` in order of key. -/
def sortedFields : List String :=
  ["crossplane", "defaultConditions", "extraResources", "manifests", "skipDelete",
    "timeoutSeconds"]

def specJson (t : EndToEndTest) : Json :=
  .obj (written (specFields.map fun key => (key, t.specWritten? key)))

theorem toJson_eq (t : EndToEndTest) : t.toJson =
    .obj [("apiVersion", .str t.apiVersion), ("kind", .str t.kind),
      ("metadata", t.metadata.toJson), ("spec", t.specJson)] := by
  simp only [toJson, specJson, specFields, written, specWritten?, listField_eq, fieldOf,
    List.map_cons, List.map_nil, List.flatMap_cons, List.flatMap_nil, List.append_assoc,
    List.append_nil]

theorem slot_sorted_crossplane (x : Option Crossplane) :
    slot (Decode.optional (Crossplane.ofValue d)) none
      ((x.map crossplaneJson).map Json.sorted) = .ok x := by
  cases x with
  | none => rfl
  | some c => exact congrArg (fun read => read >>= fun c => pure (some c)) c.ofValue_sorted

theorem record_sorted {t : EndToEndTest} (h : t.InOrder) :
    Decode.record d "E2ETestSpec" specFields (takeSpec d)
      { apiVersion := t.apiVersion, kind := t.kind, metadata := t.metadata }
      (.ofJson t.specJson.sorted) = .ok (t, .named) := by
  have hmanifests : Decode.list d (Decode.json d) (.ofJson (Json.arr t.manifests).sorted) =
      .ok t.manifests := by
    rw [Json.inOrder_arr h.manifests, ← List.map_id t.manifests]
    exact list_ofJson fun j hj =>
      (Decode.json_ofJson d j).trans (congrArg Except.ok (h.manifests j hj))
  have hrun : (sortedFields.map fun key =>
      (key, (t.specWritten? key).map Json.sorted)).foldlM (Decode.takeSlot (takeSpec d))
        { apiVersion := t.apiVersion, kind := t.kind, metadata := t.metadata } = .ok t :=
    foldlM_slots_cons (takeSlot_blank (fun _ => rfl) rfl (slot_sorted_crossplane _)) <|
      foldlM_slots_cons (takeSlot_blank (fun _ => rfl) rfl (slot_sorted_texts _)) <|
      foldlM_slots_cons (takeSlot_blank (fun _ => rfl) rfl
        (slot_sorted_values h.extraResources)) <|
      foldlM_slots_cons (takeSlot_blank (fun _ => rfl) rfl hmanifests) <|
      foldlM_slots_cons (takeSlot_blank (fun _ => rfl) rfl (slot_sorted_bool _)) <|
      foldlM_slots_cons (takeSlot_blank (fun _ => rfl) rfl
        (slot_sorted_word h.timeoutSeconds)) rfl
  rw [specJson, sorted_written sortedFields (by decide) (by decide)]
  exact record_written _ (by simp [sortedFields]) hrun

theorem ofValue_sorted {t : EndToEndTest} (h : t.InOrder) :
    EndToEndTest.ofValue d (.ofJson t.toJson.sorted) = .ok t := by
  have hrun : [("apiVersion", some (.str t.apiVersion)), ("kind", some (.str t.kind)),
      ("metadata", some t.metadata.toJson.sorted), ("spec", some t.specJson.sorted)].foldlM
        (Decode.takeSlot (take d)) {} = .ok t :=
    foldlM_slots_cons rfl <| foldlM_slots_cons rfl <|
      foldlM_slots_cons (takeSlot_some (S := EndToEndTest)
        (fun x => { apiVersion := t.apiVersion, kind := t.kind, metadata := x }) (fun _ => rfl)
        (Metadata.ofValue_sorted h.labels h.annotations)) <|
      foldlM_slots_cons (takeSlot_some (fun x => x.1) (fun _ => rfl) (record_sorted h)) rfl
  rw [toJson_eq, sorted_outer]
  exact Outcome.bind_eq_ok.mpr ⟨_, record_written _ (by simp) hrun, rfl⟩

/-- An end-to-end test that is written is told by its kind and read again. -/
theorem ofJson_sorted {t : EndToEndTest} (h : t.InOrder) (hkind : t.kind = kindName) :
    RenderedItem.ofJson t.toJson.sorted = .test (.endToEnd t) := by
  have hfound : (t.toJson.sorted.get? "kind").bind Json.text? = some kindName := by
    rw [toJson_eq, sorted_outer, ← hkind]
    rfl
  rw [RenderedItem.ofJson, hfound]
  change RenderedItem.ofReading _ ((ofValue .json _).map TestCase.endToEnd) = _
  rw [ofValue_sorted h]
  rfl

end EndToEndTest

end ResourceModels
