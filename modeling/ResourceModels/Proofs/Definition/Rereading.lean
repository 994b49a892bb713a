import ResourceModels.Definition
import ResourceModels.Manifest
import ResourceModels.Proofs.Decode.Written
import ResourceModels.Proofs.Schema.Rereading

/-!
# Definitions that are written and read again

A definition in order is read again as itself once it is written, but for what is null: a default
within a schema, or the subresources of a version. Each record is written as a list of fields, some
of which may be left out, and is read by taking them up in this order.
-/

namespace ResourceModels

open Yaml (Value)
open Decode (written record_written takeSlot_eq takeSlot_some foldlM_slots_cons)
open Schema (fieldOf slot filled? filledMap? listField_eq slot_text slot_texts)

variable {d : Dialect}

section

variable {α β : Type} {read : Value → Except Mismatch β} {write : α → Json} {f : α → β}

theorem Decode.optional_written {x : Option α} (hnull : ∀ a, write a ≠ .null)
    (h : ∀ a ∈ x, read (.ofJson (write a)) = .ok (f a)) :
    slot (Decode.optional read) none (x.map write) = .ok (x.map f) := by
  cases x with
  | none => rfl
  | some a =>
    rw [Option.map_some, slot, Option.elim, Schema.optional_of_ne_null _ (hnull a), h a rfl]
    rfl

end

theorem textDictField_eq (name : String) (texts : Dict String) :
    textDictField name texts = fieldOf name (filledMap? (Dict.mapValues Json.str texts)) := by
  cases texts <;> rfl

theorem Decode.dict_written {texts : Dict String} (h : Dict.Sorted texts) :
    slot (Decode.dict d (Decode.text d)) [] (filledMap? (Dict.mapValues Json.str texts)) =
      .ok texts := by
  have hpairs : (Value.ofJsonFields (Dict.mapValues Json.str texts)).mapM
      (fun pair => do return (← Decode.text d pair.1, ← Decode.text d pair.2)) = .ok texts := by
    clear h
    induction texts with
    | nil => rfl
    | cons text rest ih =>
      rw [Dict.mapValues, List.map_cons, Value.ofJsonFields, List.mapM_cons]
      rw [Dict.mapValues] at ih
      rw [ih]
      rfl
  cases texts with
  | nil => rfl
  | cons text rest =>
    have hread := congrArg (Except.map Dict.ofList) hpairs
    rw [Except.map, h.ofList_eq] at hread
    exact hread

namespace Metadata

/-- The fields of metadata as they are written. -/
def slots (m : Metadata) : List (String × Option Json) :=
  [("name", some (.str m.name)),
    ("labels", filledMap? (Dict.mapValues Json.str m.labels)),
    ("annotations", filledMap? (Dict.mapValues Json.str m.annotations))]

theorem toJson_eq (m : Metadata) : m.toJson = .obj (written m.slots) := by
  simp [toJson, written, slots, textDictField_eq, fieldOf]

theorem ofValue_toJson {m : Metadata} (hlabels : Dict.Sorted m.labels)
    (hannotations : Dict.Sorted m.annotations) :
    Metadata.ofValue d (.ofJson m.toJson) = .ok m := by
  have hrun : m.slots.foldlM (Decode.takeSlot (take d)) {} = .ok m :=
    foldlM_slots_cons rfl <|
      foldlM_slots_cons (takeSlot_eq (S := Metadata) (fun x => ⟨m.name, x, []⟩) (fun _ => rfl)
        (Decode.dict_written hlabels)) <|
      foldlM_slots_cons (takeSlot_eq (S := Metadata) (fun x => ⟨m.name, m.labels, x⟩) (fun _ => rfl)
        (Decode.dict_written hannotations)) rfl
  rw [toJson_eq]
  exact Outcome.bind_eq_ok.mpr ⟨_, record_written _ (by simp [slots]) hrun, rfl⟩

end Metadata

namespace Names

/-- The fields of names as they are written. -/
def slots (n : Names) : List (String × Option Json) :=
  [("kind", some (.str n.kind)), ("plural", some (.str n.plural)),
    ("singular", n.singular.map .str), ("listKind", n.listKind.map .str),
    ("shortNames", filled? (n.shortNames.map .str)),
    ("categories", filled? (n.categories.map .str))]

theorem toJson_eq (n : Names) : n.toJson = .obj (written n.slots) := by
  simp [toJson, written, slots, Schema.textField, listField_eq, fieldOf]

theorem ofValue_toJson (d : Dialect) (n : Names) : Names.ofValue d (.ofJson n.toJson) = .ok n := by
  obtain ⟨kind, plural, singular, listKind, shortNames, categories⟩ := n
  have hrun : (slots ⟨kind, plural, singular, listKind, shortNames, categories⟩).foldlM
      (Decode.takeSlot (take d)) {} =
        .ok ⟨some kind, "", plural, singular, listKind, shortNames, categories⟩ :=
    foldlM_slots_cons rfl <| foldlM_slots_cons rfl <|
      foldlM_slots_cons (takeSlot_eq (S := Draft)
        (fun x => ⟨some kind, "", plural, x, none, [], []⟩) (fun _ => rfl) (slot_text _)) <|
      foldlM_slots_cons (takeSlot_eq (S := Draft)
        (fun x => ⟨some kind, "", plural, singular, x, [], []⟩) (fun _ => rfl) (slot_text _)) <|
      foldlM_slots_cons (takeSlot_eq (S := Draft)
        (fun x => ⟨some kind, "", plural, singular, listKind, x, []⟩) (fun _ => rfl)
        (slot_texts _)) <|
      foldlM_slots_cons (takeSlot_eq (S := Draft)
        (fun x => ⟨some kind, "", plural, singular, listKind, shortNames, x⟩) (fun _ => rfl)
        (slot_texts _)) rfl
  rw [toJson_eq]
  exact Outcome.bind_eq_ok.mpr ⟨_, record_written _ (by simp [slots]) hrun, rfl⟩

end Names

namespace Validation

def settled (v : Validation) : Validation := ⟨v.schema.map Schema.settled⟩

theorem ofValue_toJson {v : Validation} (h : ∀ s ∈ v.schema, s.Orderly) :
    Validation.ofValue d (.ofJson v.toJson) = .ok v.settled := by
  have hread : Schema.ofOptional d (.ofJson ((v.schema.map Schema.toJson).getD .null)) =
      .ok (v.schema.map Schema.settled) := by
    rcases hs : v.schema with _ | s
    · rfl
    · exact Schema.slot_schema (d := d) fun s hm => Schema.ofValue_toJson d (h s (hs.trans hm))
  have hslot : slot (Schema.ofOptional d) none
      (some ((v.schema.map Schema.toJson).getD .null)) = .ok (v.schema.map Schema.settled) := hread
  refine Outcome.bind_eq_ok.mpr ⟨(v.settled, .named), ?_, rfl⟩
  exact record_written [("openAPIV3Schema", _)] (by simp) <|
    foldlM_slots_cons (takeSlot_eq (S := Validation) (fun x => ⟨x⟩) (fun _ => rfl) hslot) rfl

end Validation

namespace ResourceVersion

/-- A version whose schema and other values are in order. -/
structure InOrder (v : ResourceVersion) : Prop where
  schema : ∀ s ∈ v.schema?, s.Orderly
  subresources : ∀ j ∈ v.subresources, j.InOrder
  printerColumns : ∀ j ∈ v.printerColumns, j.InOrder

/-- The version without subresources that are null, and without a default that is. -/
def settled (v : ResourceVersion) : ResourceVersion :=
  { v with
    validation := v.validation.map Validation.settled
    subresources := v.subresources.bind Json.present? }

/-- The subresources are not null, and no default is. -/
structure NullsAbsent (v : ResourceVersion) : Prop where
  defaults : ∀ s ∈ v.schema?, s.Throughout Keywords.DefaultPresent
  subresources : v.subresources ≠ some .null

theorem settled_eq_self_iff {v : ResourceVersion} : v.settled = v ↔ v.NullsAbsent := by
  obtain ⟨name, served, storage, validation, subresources, printerColumns⟩ := v
  have hvalidation : validation.map Validation.settled = validation ↔
      ∀ s ∈ validation.bind (·.schema), s.Throughout Keywords.DefaultPresent := by
    rcases validation with _ | ⟨_ | s⟩
    · simp
    · simp [Validation.settled]
    · simp [Validation.settled, Schema.settled_eq_self_iff]
  rw [settled, ResourceVersion.mk.injEq]
  simp only [hvalidation, bind_present?_eq_self_iff, true_and, and_true]
  exact ⟨fun h => ⟨h.1, h.2⟩, fun h => ⟨h.defaults, h.subresources⟩⟩

/-- The fields of a version as they are written. -/
def slots (v : ResourceVersion) : List (String × Option Json) :=
  [("name", some (.str v.name)), ("served", some (.bool v.served)),
    ("storage", some (.bool v.storage)), ("schema", v.validation.map Validation.toJson),
    ("subresources", v.subresources), ("additionalPrinterColumns", filled? v.printerColumns)]

theorem toJson_eq (v : ResourceVersion) : v.toJson = .obj (written v.slots) := by
  simp [toJson, written, slots, listField_eq, fieldOf]

theorem ofValue_toJson {v : ResourceVersion} (h : v.InOrder) :
    ResourceVersion.ofValue d (.ofJson v.toJson) = .ok v.settled := by
  obtain ⟨name, served, storage, validation, subresources, printerColumns⟩ := v
  have hvalidation : slot (Decode.optional (Validation.ofValue d)) none
      (validation.map Validation.toJson) = .ok (validation.map Validation.settled) := by
    refine Decode.optional_written (fun _ => Json.noConfusion) fun x hx => ?_
    exact Validation.ofValue_toJson fun s hs =>
      h.schema s (Option.bind_eq_some_iff.mpr ⟨x, hx, hs⟩)
  have hrun : (slots ⟨name, served, storage, validation, subresources, printerColumns⟩).foldlM
      (Decode.takeSlot (take d)) {} = .ok ⟨some name, "", served, storage,
        validation.map Validation.settled, subresources.bind Json.present?, printerColumns⟩ :=
    foldlM_slots_cons rfl <| foldlM_slots_cons rfl <| foldlM_slots_cons rfl <|
      foldlM_slots_cons (takeSlot_eq (S := Draft)
        (fun x => ⟨some name, "", served, storage, x, none, []⟩) (fun _ => rfl) hvalidation) <|
      foldlM_slots_cons (takeSlot_eq (S := Draft)
        (fun x => ⟨some name, "", served, storage, validation.map Validation.settled, x, []⟩)
        (fun _ => rfl) (Schema.slot_json h.subresources)) <|
      foldlM_slots_cons (takeSlot_eq (S := Draft)
        (fun x => ⟨some name, "", served, storage, validation.map Validation.settled,
          subresources.bind Json.present?, x⟩)
        (fun _ => rfl) (Schema.slot_values h.printerColumns)) rfl
  rw [toJson_eq]
  exact Outcome.bind_eq_ok.mpr ⟨_, record_written _ (by simp [slots]) hrun, rfl⟩

end ResourceVersion

namespace ResourceDefinition

/-- A definition whose labels, annotations and versions are in order. -/
structure InOrder (r : ResourceDefinition) : Prop where
  labels : Dict.Sorted r.metadata.labels
  annotations : Dict.Sorted r.metadata.annotations
  versions : ∀ v ∈ r.versions, v.InOrder

/-- The definition without what is null in its versions. -/
def settled (r : ResourceDefinition) : ResourceDefinition :=
  { r with versions := r.versions.map ResourceVersion.settled }

/-- Nothing is null in the versions that would be missing when it is read again. -/
def NullsAbsent (r : ResourceDefinition) : Prop := ∀ v ∈ r.versions, v.NullsAbsent

theorem settled_eq_self_iff {r : ResourceDefinition} : r.settled = r ↔ r.NullsAbsent := by
  have hversions : r.versions.map ResourceVersion.settled = r.versions.map (fun v => v) ↔
      r.NullsAbsent := by
    rw [List.map_inj_left]
    simp only [ResourceVersion.settled_eq_self_iff, NullsAbsent]
  rw [← hversions, List.map_id']
  constructor
  · exact congrArg ResourceDefinition.versions
  · intro h
    rw [settled, h]

/-- The definition with only what is below `spec`. -/
def specOnly (r : ResourceDefinition) : ResourceDefinition :=
  { group := r.group, names := r.names, scope := r.scope, versions := r.versions }

/-- What is written below `spec`. -/
def specSlots (r : ResourceDefinition) : List (String × Option Json) :=
  [("group", some (.str r.group)), ("names", some r.names.toJson), ("scope", some (.str r.scope)),
    ("versions", some (.arr (r.versions.map ResourceVersion.toJson)))]

def slots (r : ResourceDefinition) : List (String × Option Json) :=
  [("apiVersion", some (.str r.apiVersion)), ("kind", some (.str r.kind)),
    ("metadata", some r.metadata.toJson), ("spec", some (.obj (written r.specSlots)))]

theorem toJson_eq (r : ResourceDefinition) : r.toJson = .obj (written r.slots) := rfl

theorem specOfValue_written {r : ResourceDefinition} (h : ∀ v ∈ r.versions, v.InOrder) :
    specOfValue d (.ofJson (.obj (written r.specSlots))) =
      .ok r.settled.specOnly := by
  have hversions : Decode.list d (ResourceVersion.ofValue d)
      (.ofJson (.arr (r.versions.map ResourceVersion.toJson))) = .ok r.settled.versions :=
    Schema.list_ofJson fun v hv => ResourceVersion.ofValue_toJson (h v hv)
  have hrun : r.specSlots.foldlM (Decode.takeSlot (takeSpec d)) {} =
      .ok ⟨some r.group, some r.names, r.scope, r.settled.versions⟩ :=
    foldlM_slots_cons rfl <|
      foldlM_slots_cons (takeSlot_some (S := Draft)
        (fun x => ⟨some r.group, some x, "Namespaced", []⟩) (fun _ => rfl)
        (Names.ofValue_toJson d r.names)) <|
      foldlM_slots_cons rfl <|
      foldlM_slots_cons (takeSlot_some (S := Draft)
        (fun x => ⟨some r.group, some r.names, r.scope, x⟩) (fun _ => rfl) hversions) rfl
  exact Outcome.bind_eq_ok.mpr ⟨_, record_written _ (by simp [specSlots]) hrun, rfl⟩

theorem ofValue_toJson {r : ResourceDefinition} (h : r.InOrder) :
    ResourceDefinition.ofValue d (.ofJson r.toJson) = .ok r.settled := by
  have hrun : r.slots.foldlM (Decode.takeSlot (takeOuter d (specOfValue d))) {} =
      .ok ⟨⟨some r.apiVersion, some r.kind, r.metadata⟩,
        some r.settled.specOnly⟩ :=
    foldlM_slots_cons rfl <| foldlM_slots_cons rfl <|
      foldlM_slots_cons (takeSlot_some (S := Outer ResourceDefinition)
        (fun x => ⟨⟨some r.apiVersion, some r.kind, x⟩, none⟩) (fun _ => rfl)
        (Metadata.ofValue_toJson h.labels h.annotations)) <|
      foldlM_slots_cons (takeSlot_some (S := Outer ResourceDefinition)
        (fun x => ⟨⟨some r.apiVersion, some r.kind, r.metadata⟩, some x⟩) (fun _ => rfl)
        (specOfValue_written h.versions)) rfl
  rw [toJson_eq]
  exact Outcome.bind_eq_ok.mpr ⟨_, record_written _ (by simp [slots]) hrun, rfl⟩

end ResourceDefinition

/-- A definition of a kind of its own that is written is a document with that definition. -/
theorem Manifest.ofValue_toJson {r : ResourceDefinition} (h : r.InOrder)
    (hkind : r.kind = ResourceDefinition.kindName) :
    Manifest.ofValue (.ofJson r.toJson) = .ok (.resource r.settled) := by
  have hof : kindOf (.ofJson r.toJson) = .ok (some r.kind) := rfl
  rw [Manifest.ofValue, hof]
  change (if some r.kind = some ResourceDefinition.kindName then _ else _) = _
  rw [if_pos (congrArg some hkind), ResourceDefinition.ofValue_toJson h]
  rfl

end ResourceModels
