import ResourceModels.Proofs.Definition.Rereading
import ResourceModels.Proofs.Derive

/-!
# Definitions in order

Every definition that is read is in order, and a document that defines a resource has the kind of
such documents: its kind is read twice, once to tell what it defines and once as a part of that.
-/

namespace ResourceModels

open Yaml (Value)
open Decode (record_preserves record_related)

/-- A version of a composite definition whose schema and other values are in order. -/
structure CompositeVersion.InOrder (v : CompositeVersion) : Prop where
  schema : ∀ s ∈ v.schema?, s.Orderly
  printerColumns : ∀ j ∈ v.printerColumns, j.InOrder

section

variable {d : Dialect} {v : Value}

theorem Metadata.sorted_of_ofValue {m : Metadata} (h : Metadata.ofValue d v = .ok m) :
    Dict.Sorted m.labels ∧ Dict.Sorted m.annotations := by
  obtain ⟨⟨_, shape⟩, hrecord, rfl⟩ := Outcome.bind_pure_eq_ok.mp h
  refine record_preserves (P := fun m : Metadata =>
    Dict.Sorted m.labels ∧ Dict.Sorted m.annotations) (fun m key v m' hm htake => ?_) ?_ hrecord
  · unfold take at htake
    split at htake
    · obtain ⟨name, -, rfl⟩ := Outcome.bind_pure_eq_ok.mp htake
      exact hm
    · obtain ⟨labels, hlabels, rfl⟩ := Outcome.bind_pure_eq_ok.mp htake
      exact ⟨Decode.sorted_of_dict hlabels, hm.2⟩
    · obtain ⟨annotations, hannotations, rfl⟩ := Outcome.bind_pure_eq_ok.mp htake
      exact ⟨hm.1, Decode.sorted_of_dict hannotations⟩
    · cases htake
      exact hm
  · exact ⟨.nil, .nil⟩

theorem Validation.orderly_of_ofValue {x : Validation} (h : Validation.ofValue d v = .ok x) :
    ∀ s ∈ x.schema, s.Orderly := by
  obtain ⟨⟨_, shape⟩, hrecord, rfl⟩ := Outcome.bind_pure_eq_ok.mp h
  refine record_preserves (P := fun x : Validation => ∀ s ∈ x.schema, s.Orderly)
    (fun x key v x' hx htake => ?_) (fun _ hm => absurd hm (Option.not_mem_none _)) hrecord
  split at htake
  · obtain ⟨part, hpart, rfl⟩ := Outcome.bind_pure_eq_ok.mp htake
    exact Schema.orderly_of_ofOptional hpart
  · cases htake
    exact hx

theorem orderly_of_optional_validation {x : Option Validation}
    (h : Decode.optional (Validation.ofValue d) v = .ok x) :
    ∀ s ∈ x.bind (·.schema), s.Orderly := by
  intro s hs
  obtain ⟨validation, hx, hs⟩ := Option.bind_eq_some_iff.mp hs
  exact Decode.optional_preserves (fun _ _ => Validation.orderly_of_ofValue) h validation hx s hs

theorem ResourceVersion.inOrder_of_ofValue {x : ResourceVersion}
    (h : ResourceVersion.ofValue d v = .ok x) : x.InOrder := by
  obtain ⟨⟨p, shape⟩, hrecord, h⟩ := Outcome.bind_eq_ok.mp h
  obtain ⟨name, -, rfl⟩ := Outcome.bind_pure_eq_ok.mp h
  have horder : p.version.InOrder := by
    refine record_preserves (P := fun p : Draft => p.version.InOrder)
      (fun p key v p' hp htake => ?_) ?_ hrecord
    · obtain ⟨hschema, hsubresources, hcolumns⟩ := hp
      unfold take at htake
      split at htake
      · obtain ⟨_, -, rfl⟩ := Outcome.bind_pure_eq_ok.mp htake
        exact ⟨hschema, hsubresources, hcolumns⟩
      · obtain ⟨_, -, rfl⟩ := Outcome.bind_pure_eq_ok.mp htake
        exact ⟨hschema, hsubresources, hcolumns⟩
      · obtain ⟨_, -, rfl⟩ := Outcome.bind_pure_eq_ok.mp htake
        exact ⟨hschema, hsubresources, hcolumns⟩
      · obtain ⟨validation, hvalidation, rfl⟩ := Outcome.bind_pure_eq_ok.mp htake
        exact ⟨orderly_of_optional_validation hvalidation, hsubresources, hcolumns⟩
      · obtain ⟨subresources, hread, rfl⟩ := Outcome.bind_pure_eq_ok.mp htake
        exact ⟨hschema, Decode.inOrder_of_optional hread, hcolumns⟩
      · obtain ⟨columns, hread, rfl⟩ := Outcome.bind_pure_eq_ok.mp htake
        exact ⟨hschema, hsubresources, Decode.inOrder_of_list hread⟩
      · cases htake
        exact ⟨hschema, hsubresources, hcolumns⟩
    · exact ⟨fun _ hm => absurd hm (Option.not_mem_none _),
        fun _ hm => absurd hm (Option.not_mem_none _), List.forall_mem_nil _⟩
  exact ⟨horder.schema, horder.subresources, horder.printerColumns⟩

theorem ResourceDefinition.inOrder_of_specOfValue {r : ResourceDefinition}
    (h : ResourceDefinition.specOfValue d v = .ok r) : ∀ x ∈ r.versions, x.InOrder := by
  obtain ⟨⟨p, shape⟩, hrecord, h⟩ := Outcome.bind_eq_ok.mp h
  obtain ⟨group, -, h⟩ := Outcome.bind_eq_ok.mp h
  obtain ⟨names, -, rfl⟩ := Outcome.bind_pure_eq_ok.mp h
  refine record_preserves (P := fun p : Draft => ∀ x ∈ p.versions, x.InOrder)
    (fun p key v p' hp htake => ?_) (List.forall_mem_nil _) hrecord
  unfold takeSpec at htake
  split at htake
  · obtain ⟨_, -, rfl⟩ := Outcome.bind_pure_eq_ok.mp htake
    exact hp
  · obtain ⟨_, -, rfl⟩ := Outcome.bind_pure_eq_ok.mp htake
    exact hp
  · obtain ⟨_, -, rfl⟩ := Outcome.bind_pure_eq_ok.mp htake
    exact hp
  · obtain ⟨versions, hversions, rfl⟩ := Outcome.bind_pure_eq_ok.mp htake
    exact Decode.list_preserves (fun _ _ => ResourceVersion.inOrder_of_ofValue) hversions
  · cases htake
    exact hp

/-- What is outside and below `spec` of a definition that is read. -/
theorem ResourceDefinition.outer_preserves {α : Type} {spec : Value → Except Mismatch α}
    {P : α → Prop} (hspec : ∀ v a, spec v = .ok a → P a) {name : String} {p : Outer α}
    {shape : Shape}
    (h : Decode.record d name outerFields (takeOuter d spec) {} v = .ok (p, shape)) :
    (Dict.Sorted p.header.metadata.labels ∧ Dict.Sorted p.header.metadata.annotations) ∧
      ∀ a ∈ p.spec, P a := by
  refine record_preserves (P := fun p : Outer α =>
    (Dict.Sorted p.header.metadata.labels ∧ Dict.Sorted p.header.metadata.annotations) ∧
      ∀ a ∈ p.spec, P a) (fun p key v p' hp htake => ?_) ?_ h
  · unfold takeOuter at htake
    split at htake
    · obtain ⟨_, -, rfl⟩ := Outcome.bind_pure_eq_ok.mp htake
      exact hp
    · obtain ⟨_, -, rfl⟩ := Outcome.bind_pure_eq_ok.mp htake
      exact hp
    · obtain ⟨metadata, hmetadata, rfl⟩ := Outcome.bind_pure_eq_ok.mp htake
      exact ⟨Metadata.sorted_of_ofValue hmetadata, hp.2⟩
    · obtain ⟨a, ha, rfl⟩ := Outcome.bind_pure_eq_ok.mp htake
      refine ⟨hp.1, ?_⟩
      rintro _ ⟨⟩
      exact hspec _ _ ha
    · cases htake
      exact hp
  · exact ⟨⟨.nil, .nil⟩, fun _ hm => absurd hm (Option.not_mem_none _)⟩

theorem ResourceDefinition.inOrder_of_ofValue {r : ResourceDefinition}
    (h : ResourceDefinition.ofValue d v = .ok r) : r.InOrder := by
  obtain ⟨⟨p, shape⟩, hrecord, h⟩ := Outcome.bind_eq_ok.mp h
  obtain ⟨own, hown, rfl⟩ := Outcome.bind_pure_eq_ok.mp h
  obtain ⟨hmetadata, hspec⟩ :=
    outer_preserves (fun _ _ => inOrder_of_specOfValue) hrecord
  exact ⟨hmetadata.1, hmetadata.2, hspec own (Decode.required_eq_ok hown)⟩

theorem CompositeVersion.inOrder_of_ofValue {x : CompositeVersion}
    (h : CompositeVersion.ofValue d v = .ok x) : x.InOrder := by
  obtain ⟨⟨p, shape⟩, hrecord, h⟩ := Outcome.bind_eq_ok.mp h
  obtain ⟨name, -, rfl⟩ := Outcome.bind_pure_eq_ok.mp h
  have horder : p.version.InOrder := by
    refine record_preserves (P := fun p : Draft => p.version.InOrder)
      (fun p key v p' hp htake => ?_) ?_ hrecord
    · obtain ⟨hschema, hcolumns⟩ := hp
      unfold take at htake
      split at htake
      · obtain ⟨_, -, rfl⟩ := Outcome.bind_pure_eq_ok.mp htake
        exact ⟨hschema, hcolumns⟩
      · obtain ⟨_, -, rfl⟩ := Outcome.bind_pure_eq_ok.mp htake
        exact ⟨hschema, hcolumns⟩
      · obtain ⟨_, -, rfl⟩ := Outcome.bind_pure_eq_ok.mp htake
        exact ⟨hschema, hcolumns⟩
      · obtain ⟨validation, hvalidation, rfl⟩ := Outcome.bind_pure_eq_ok.mp htake
        exact ⟨orderly_of_optional_validation hvalidation, hcolumns⟩
      · obtain ⟨columns, hread, rfl⟩ := Outcome.bind_pure_eq_ok.mp htake
        exact ⟨hschema, Decode.inOrder_of_list hread⟩
      · cases htake
        exact ⟨hschema, hcolumns⟩
    · exact ⟨fun _ hm => absurd hm (Option.not_mem_none _), List.forall_mem_nil _⟩
  exact ⟨horder.schema, horder.printerColumns⟩

theorem CompositeDefinition.inOrder_of_specOfValue {c : CompositeDefinition}
    (h : CompositeDefinition.specOfValue d v = .ok c) : ∀ x ∈ c.versions, x.InOrder := by
  obtain ⟨⟨p, shape⟩, hrecord, h⟩ := Outcome.bind_eq_ok.mp h
  obtain ⟨group, -, h⟩ := Outcome.bind_eq_ok.mp h
  obtain ⟨names, -, rfl⟩ := Outcome.bind_pure_eq_ok.mp h
  refine record_preserves (P := fun p : Draft => ∀ x ∈ p.versions, x.InOrder)
    (fun p key v p' hp htake => ?_) (List.forall_mem_nil _) hrecord
  unfold takeSpec at htake
  split at htake
  · obtain ⟨_, -, rfl⟩ := Outcome.bind_pure_eq_ok.mp htake
    exact hp
  · obtain ⟨_, -, rfl⟩ := Outcome.bind_pure_eq_ok.mp htake
    exact hp
  · obtain ⟨_, -, rfl⟩ := Outcome.bind_pure_eq_ok.mp htake
    exact hp
  · obtain ⟨versions, hversions, rfl⟩ := Outcome.bind_pure_eq_ok.mp htake
    exact Decode.list_preserves (fun _ _ => CompositeVersion.inOrder_of_ofValue) hversions
  · cases htake
    exact hp

theorem CompositeDefinition.inOrder_of_ofValue {c : CompositeDefinition}
    (h : CompositeDefinition.ofValue d v = .ok c) : ∀ x ∈ c.versions, x.InOrder := by
  obtain ⟨⟨p, shape⟩, hrecord, h⟩ := Outcome.bind_eq_ok.mp h
  obtain ⟨own, hown, rfl⟩ := Outcome.bind_pure_eq_ok.mp h
  obtain ⟨-, hspec⟩ :=
    ResourceDefinition.outer_preserves (fun _ _ => inOrder_of_specOfValue) hrecord
  exact hspec own (Decode.required_eq_ok hown)

end

namespace Manifest

/-- What a manifest defines is in order, and a resource is of the kind of resources. -/
def InOrder : Manifest → Prop
  | .resource r => r.InOrder ∧ r.kind = ResourceDefinition.kindName
  | .composite x => ∀ v ∈ x.versions, v.InOrder
  | .other _ => True

/-- The kind that tells what a document defines is the one that is read as a part of it. -/
theorem kind_of_ofValue {v : Value} {r : ResourceDefinition} {name : String}
    (hkind : kindOf v = .ok (some name)) (h : ResourceDefinition.ofValue .yaml v = .ok r) :
    r.kind = name := by
  obtain ⟨⟨kind, _⟩, hkindOf, rfl⟩ := Outcome.bind_pure_eq_ok.mp hkind
  obtain ⟨⟨p, shape⟩, hrecord, h⟩ := Outcome.bind_eq_ok.mp h
  obtain ⟨own, hown, rfl⟩ := Outcome.bind_pure_eq_ok.mp h
  have hsame : some name = p.header.kind := by
    refine record_related (R := fun kind (p : ResourceDefinition.Outer ResourceDefinition) =>
      kind = p.header.kind) rfl ?_ rfl hkindOf hrecord
    intro kind p key v kind' p' hp htake htake'
    unfold ResourceDefinition.takeOuter at htake'
    split at htake'
    · obtain ⟨_, -, rfl⟩ := Outcome.bind_pure_eq_ok.mp htake'
      obtain ⟨_, -, rfl⟩ := Outcome.bind_pure_eq_ok.mp htake
      exact hp
    · obtain ⟨own, hown, rfl⟩ := Outcome.bind_pure_eq_ok.mp htake'
      change Decode.optional (Decode.text .yaml) v = .ok kind' at htake
      rw [Decode.optional_eq_some hown nofun] at htake
      exact (Except.ok.inj htake).symm
    · obtain ⟨_, -, rfl⟩ := Outcome.bind_pure_eq_ok.mp htake'
      cases htake
      exact hp
    · obtain ⟨_, -, rfl⟩ := Outcome.bind_pure_eq_ok.mp htake'
      cases htake
      exact hp
    · next hversion hnamed _ _ =>
      cases htake'
      split at htake
      · exact absurd rfl hversion
      · exact absurd rfl hnamed
      · cases htake
        exact hp
  change p.header.kind.getD ResourceDefinition.kindName = name
  rw [← hsame]
  rfl

theorem inOrder_of_ofValue {v : Value} {m : Manifest} (h : Manifest.ofValue v = .ok m) :
    m.InOrder := by
  obtain ⟨kind, hkind, h⟩ := Outcome.bind_eq_ok.mp h
  split at h
  · next hresource =>
    obtain ⟨r, hr, rfl⟩ := Outcome.bind_pure_eq_ok.mp h
    subst hresource
    exact ⟨ResourceDefinition.inOrder_of_ofValue hr, kind_of_ofValue hkind hr⟩
  split at h
  · obtain ⟨x, hx, rfl⟩ := Outcome.bind_pure_eq_ok.mp h
    exact CompositeDefinition.inOrder_of_ofValue hx
  · cases h
    trivial

theorem inOrder_of_classify {path : String} {contents : ByteArray} {manifests : List Manifest}
    (h : classify path contents = .ok manifests) : ∀ m ∈ manifests, m.InOrder := by
  intro m hm
  unfold classify at h
  split at h
  · next read hread =>
    cases h
    obtain ⟨document, hdocument, hm⟩ := List.mem_filterMap.mp hm
    obtain ⟨given, -, hgiven⟩ := Outcome.exists_of_mem_mapM hread hdocument
    change document = some m at hm
    subst hm
    unfold ofDocument at hgiven
    split at hgiven
    · cases hgiven
    split at hgiven
    · cases hgiven
    split at hgiven
    · next hof =>
      cases hgiven
      exact inOrder_of_ofValue hof
    · cases hgiven
  · cases h

end Manifest

end ResourceModels

/-!
## Derived resources in order

The resources that are derived from a composite definition in order are in order: the fields that
are added to its schemas are, and what is added keeps the properties in order.
-/

namespace ResourceModels

namespace Schema

/-- A schema without extensions and without a default, whose values are texts and whose properties
are in order. -/
def isPlain (s : Schema) : Bool :=
  s.keywords.extensions.isEmpty && s.keywords.default?.isNone &&
    s.keywords.values.all (·.text?.isSome) && decide (s.properties.Pairwise (·.1 < ·.1))

variable {s : Schema} {fields : Dict Schema}

theorem orderly_of_isPlain (h : ∀ n ∈ s.nodes, n.isPlain = true) : s.Orderly := by
  intro n hn
  have hplain := h n hn
  simp only [isPlain, Bool.and_eq_true, List.isEmpty_iff, Option.isNone_iff_eq_none,
    List.all_eq_true, decide_eq_true_eq] at hplain
  obtain ⟨⟨⟨hextensions, hdefault⟩, hvalues⟩, hproperties⟩ := hplain
  refine ⟨⟨?_, ?_, ?_, fun j hj => ?_, ?_⟩, hproperties⟩
  · rw [hextensions]
    exact .nil
  · simp [hextensions, Dict.keys]
  · simp [hextensions]
  · have htext := hvalues j hj
    cases j with
    | str t => rfl
    | _ => cases htext
  · simp [hdefault]

theorem Orderly.withMissing (h : s.Orderly) (hfields : ∀ field ∈ fields, field.2.Orderly) :
    (s.withMissing fields).Orderly := by
  obtain ⟨hkeywords, ⟨hsorted, hproperties⟩, hrest⟩ := orderly_iff.mp h
  have hadded := Dict.sorted_insertMissing hsorted fields
  refine orderly_iff.mpr ⟨hkeywords, ⟨hadded, fun p hm => ?_⟩, hrest⟩
  rcases Dict.mem_insertMissing hm with hm | hm
  · exact hproperties p hm
  · exact hfields p hm

theorem Orderly.withProperty (h : s.Orderly) (name : String) {p : Schema} (hp : p.Orderly) :
    (s.withProperty name p).Orderly := by
  obtain ⟨hkeywords, ⟨hsorted, hproperties⟩, hrest⟩ := orderly_iff.mp h
  refine orderly_iff.mpr ⟨hkeywords, ⟨hsorted.insert name p, fun q hm => ?_⟩, hrest⟩
  rcases Dict.mem_insert hm with rfl | hm
  · exact hp
  · exact hproperties q hm

theorem orderly_object : (typed "object").Orderly := orderly_of_isPlain (by decide)

theorem Orderly.withinProperty (h : s.Orderly) (name : String)
    (hfields : ∀ field ∈ fields, field.2.Orderly) : (s.withinProperty name fields).Orderly := by
  refine h.withProperty name (Orderly.withMissing ?_ hfields)
  cases hget : Dict.get? s.properties name with
  | none => exact orderly_object
  | some p => exact h.part (mem_parts.mpr (.inl (List.mem_map_of_mem (Dict.mem_of_get? hget))))

theorem Orderly.asObject (h : s.Orderly) : s.asObject.Orderly := by
  obtain ⟨hsorted, hapart, hextensions, hvalues, hdefault⟩ := h.keywords
  exact h.withKeywords ⟨hsorted, hapart, hextensions, hvalues, hdefault⟩

end Schema

namespace CompositeDefinition

theorem machinery_isPlain :
    ∀ fields ∈ [composite.fields, claim.fields, Machinery.statusFields], ∀ field ∈ fields,
      ∀ n ∈ field.2.nodes, n.isPlain = true := by
  decide +kernel

theorem inOrder_deriveVersion {role : Role} (hrole : role = composite ∨ role = claim)
    {v : CompositeVersion} (h : v.InOrder) : (deriveVersion role v).InOrder := by
  have hfields : ∀ fields ∈ [composite.fields, claim.fields, Machinery.statusFields],
      ∀ field ∈ fields, field.2.Orderly :=
    fun fields hfields field hfield =>
      Schema.orderly_of_isPlain (machinery_isPlain fields hfields field hfield)
  have hrolefields : ∀ field ∈ role.fields, field.2.Orderly := by
    rcases hrole with rfl | rfl
    · exact hfields composite.fields (by simp)
    · exact hfields claim.fields (by simp)
  have hown : (v.schema?.getD (Schema.typed "object")).Orderly := by
    cases hs : v.schema? with
    | none => exact Schema.orderly_object
    | some s => exact h.schema s hs
  have hspec := hown.asObject.withinProperty "spec" hrolefields
  have hstatus := hspec.withinProperty "status" (hfields Machinery.statusFields (by simp))
  refine ⟨?_, ?_, h.printerColumns⟩
  · rintro _ ⟨⟩
    exact hstatus
  · rintro _ ⟨⟩
    rfl

theorem inOrder_of_mem_resources {x : CompositeDefinition} {d : Derived} (hd : x.derive = .ok d)
    (h : ∀ v ∈ x.versions, v.InOrder) {r : ResourceDefinition} (hr : r ∈ d.resources) :
    (Manifest.resource r).InOrder := by
  obtain ⟨role, names, hrole, rfl⟩ := exists_role_deriveAs hd hr
  refine ⟨⟨.nil, .nil, fun v hv => ?_⟩, rfl⟩
  obtain ⟨own, hown, rfl⟩ := List.mem_map.mp hv
  exact inOrder_deriveVersion hrole (h own hown)

end CompositeDefinition

end ResourceModels
