import ResourceModels.Proofs.Derive
import ResourceModels.Proofs.Dict
import ResourceModels.Proofs.Schema.Nodes

/-!
# What derivation adds to schemas

A derived resource has the versions of its definition in order. To the schema of each are added the
fields that a composite or a claim has in its `spec` and in its `status`, where there is none of the
name yet, and a type if it has none. All else stays where it is, so nothing is left to add to the
schemas of a derived resource.
-/

namespace ResourceModels

namespace Schema

/-- The schema with those of the given properties that it does not have, and otherwise as it is. -/
structure Extends (fields : Dict Schema) (s t : Schema) : Prop where
  property : ∀ name,
    Dict.get? t.properties name = (Dict.get? s.properties name).or (Dict.get? fields name)
  rest : { t with properties := s.properties } = s
  sorted : Dict.Sorted s.properties → Dict.Sorted t.properties

/-- An object that is a property, and an empty one if there is none of the name. -/
def objectAt (s : Schema) (name : String) : Schema :=
  (Dict.get? s.properties name).getD (typed "object")

/-- The schema of a version after fields are added to `spec` and `status`. Every position but the
root and these two holds the schema that it held. -/
structure Equips (fields : Dict Schema) (s t : Schema) : Prop where
  keywords : t.keywords =
    { s.keywords with typeName := some (s.keywords.typeName.getD "object") }
  rest : { t with keywords := s.keywords, properties := s.properties } = s
  spec : ∃ u, Dict.get? t.properties "spec" = some u ∧ Extends fields (s.objectAt "spec") u
  status : ∃ u, Dict.get? t.properties "status" = some u ∧
    Extends Machinery.statusFields (s.objectAt "status") u
  property : ∀ name, name ≠ "spec" → name ≠ "status" →
    Dict.get? t.properties name = Dict.get? s.properties name
  sorted : Dict.Sorted s.properties → Dict.Sorted t.properties
  nested : ∀ position n, position ∉ [[], [.property "spec"], [.property "status"]] →
    s.at? position = some n → t.at? position = some n

section

variable {fields : Dict Schema} {s t : Schema}

theorem part?_withProperties (s : Schema) (properties : List (String × Schema)) {place : Place}
    (h : ∀ name, place ≠ .property name) :
    part? { s with properties } place = s.part? place := by
  cases place with
  | property name => exact absurd rfl (h name)
  | _ => rfl

theorem Extends.part? (h : Extends fields s t) {place : Place} {n : Schema}
    (hn : s.part? place = some n) : t.part? place = some n := by
  by_cases hplace : ∃ name, place = .property name
  · obtain ⟨name, rfl⟩ := hplace
    exact (h.property name).trans (by rw [show Dict.get? s.properties name = some n from hn]; rfl)
  · have hother := not_exists.mp hplace
    rw [← part?_withProperties t s.properties hother, h.rest]
    exact hn

/-- Below the object itself nothing changes. -/
theorem Extends.at? (h : Extends fields s t) {position : List Place} (hne : position ≠ [])
    {n : Schema} (hn : s.at? position = some n) : t.at? position = some n := by
  cases position with
  | nil => exact absurd rfl hne
  | cons place rest =>
    obtain ⟨part, hpart, hn⟩ := Option.bind_eq_some_iff.mp hn
    exact Option.bind_eq_some_iff.mpr ⟨part, h.part? hpart, hn⟩

theorem extends_withMissing (s : Schema) (fields : Dict Schema) :
    Extends fields s (s.withMissing fields) where
  property := Dict.get?_insertMissing s.properties fields
  rest := by cases s; rfl
  sorted h := Dict.sorted_insertMissing h fields

theorem get?_withinProperty (s : Schema) (name : String) (fields : Dict Schema) (other : String) :
    Dict.get? (s.withinProperty name fields).properties other =
      if name = other then some ((s.objectAt name).withMissing fields)
      else Dict.get? s.properties other := Dict.get?_insert s.properties name other _

theorem objectAt_withinProperty_of_ne {name other : String} (h : name ≠ other) (s : Schema)
    (fields : Dict Schema) : (s.withinProperty name fields).objectAt other = s.objectAt other := by
  rw [objectAt, get?_withinProperty, if_neg h, objectAt]

theorem withMissing_withMissing (s : Schema) (fields : Dict Schema) :
    (s.withMissing fields).withMissing fields = s.withMissing fields := by
  have hkeys : ∀ field ∈ fields, field.1 ∈ Dict.keys (s.withMissing fields).properties :=
    fun field hf => Dict.mem_keys_insertMissing.mpr (.inr (List.mem_map_of_mem hf))
  rw [withMissing, Dict.insertMissing_eq_self hkeys]
  cases s
  rfl

theorem withinProperty_withinProperty (s : Schema) (name : String) (fields : Dict Schema) :
    (s.withinProperty name fields).withinProperty name fields = s.withinProperty name fields := by
  have hat : (s.withinProperty name fields).objectAt name =
      (s.objectAt name).withMissing fields := by
    rw [objectAt, get?_withinProperty, if_pos rfl, Option.getD_some]
  change (s.withinProperty name fields).withProperty name
    (((s.withinProperty name fields).objectAt name).withMissing fields) = _
  rw [hat, withMissing_withMissing]
  exact congrArg (fun properties => { s with properties })
    (Dict.insert_insert_self s.properties name _ _)

theorem withinProperty_comm {name other : String} (h : name < other) (s : Schema)
    (fields others : Dict Schema) :
    (s.withinProperty name fields).withinProperty other others =
      (s.withinProperty other others).withinProperty name fields := by
  change (s.withinProperty name fields).withProperty other
      (((s.withinProperty name fields).objectAt other).withMissing others) =
    (s.withinProperty other others).withProperty name
      (((s.withinProperty other others).objectAt name).withMissing fields)
  rw [objectAt_withinProperty_of_ne h.ne, objectAt_withinProperty_of_ne h.ne']
  exact congrArg (fun properties => { s with properties })
    (Dict.insert_insert_of_lt s.properties h _ _)

/-- The schema of a version with the fields of a role. -/
def equipped (fields : Dict Schema) (s : Schema) : Schema :=
  (s.asObject.withinProperty "spec" fields).withinProperty "status" Machinery.statusFields

theorem keywords_equipped (fields : Dict Schema) (s : Schema) : (s.equipped fields).keywords =
    { s.keywords with typeName := some (s.keywords.typeName.getD "object") } := by
  cases htype : s.keywords.typeName <;>
    simp [equipped, withinProperty, withProperty, asObject, htype]

theorem asObject_of_typeName {name : String} (h : s.keywords.typeName = some name) :
    s.asObject = s := by
  have hkeywords : { s.keywords with typeName := s.keywords.typeName.or (some "object") } =
      s.keywords := by rw [h, Option.some_or, ← h]
  rw [asObject, hkeywords]
  cases s
  rfl

theorem asObject_equipped (fields : Dict Schema) (s : Schema) :
    (s.equipped fields).asObject = s.equipped fields :=
  asObject_of_typeName (congrArg Keywords.typeName (keywords_equipped fields s))

/-- What is added stays the same when it is added again. -/
theorem equipped_equipped (fields : Dict Schema) (s : Schema) :
    (s.equipped fields).equipped fields = s.equipped fields := by
  have hlt : "spec" < "status" := by decide
  rw [equipped, asObject_equipped, equipped, withinProperty_comm hlt,
    withinProperty_withinProperty, ← withinProperty_comm hlt, withinProperty_withinProperty]

theorem get?_equipped (fields : Dict Schema) (s : Schema) (name : String) :
    Dict.get? (s.equipped fields).properties name =
      if name = "status" then some ((s.objectAt "status").withMissing Machinery.statusFields)
      else if name = "spec" then some ((s.objectAt "spec").withMissing fields)
      else Dict.get? s.properties name := by
  rw [equipped, get?_withinProperty, get?_withinProperty,
    objectAt_withinProperty_of_ne (by decide)]
  simp only [eq_comm (b := name)]
  rfl

/-- Only the root, `spec` and `status` change. -/
theorem at?_equipped {position : List Place} {n : Schema}
    (hposition : position ∉ [[], [.property "spec"], [.property "status"]])
    (hn : s.at? position = some n) : (s.equipped fields).at? position = some n := by
  simp only [List.mem_cons, List.not_mem_nil, or_false, not_or] at hposition
  obtain ⟨hroot, hspec, hstatus⟩ := hposition
  cases position with
  | nil => exact absurd rfl hroot
  | cons place rest =>
    obtain ⟨part, hpart, hat⟩ := Option.bind_eq_some_iff.mp hn
    refine Option.bind_eq_some_iff.mpr ?_
    by_cases hplace : ∃ name, place = .property name
    · obtain ⟨name, rfl⟩ := hplace
      have hget : Dict.get? s.properties name = some part := hpart
      have hobject : s.objectAt name = part := by rw [objectAt, hget, Option.getD_some]
      have hname := get?_equipped fields s name
      split at hname
      · next heq =>
        subst heq
        have hbelow : rest ≠ [] := by rintro rfl; exact hstatus rfl
        exact ⟨_, hname, (extends_withMissing _ _).at? hbelow (hobject ▸ hat)⟩
      split at hname
      · next heq =>
        subst heq
        have hbelow : rest ≠ [] := by rintro rfl; exact hspec rfl
        exact ⟨_, hname, (extends_withMissing _ _).at? hbelow (hobject ▸ hat)⟩
      · exact ⟨part, hname.trans hget, hat⟩
    · refine ⟨part, ?_, hat⟩
      cases place with
      | property name => exact absurd ⟨name, rfl⟩ hplace
      | _ => exact hpart

theorem equips_equipped (fields : Dict Schema) (s : Schema) :
    Equips fields s (s.equipped fields) where
  keywords := keywords_equipped fields s
  rest := by cases s; rfl
  spec := ⟨_, get?_equipped fields s "spec", extends_withMissing _ _⟩
  status := ⟨_, get?_equipped fields s "status", extends_withMissing _ _⟩
  property name hspec hstatus := by rw [get?_equipped, if_neg hstatus, if_neg hspec]
  sorted h := (h.insert _ _).insert _ _
  nested _ _ := at?_equipped

end

end Schema

namespace CompositeDefinition

/-- A resource with the versions of a definition, whose schemas have fields added. A version without
a schema counts as one of empty objects. -/
def Publishes (x : CompositeDefinition) (fields : Dict Schema) (r : ResourceDefinition) : Prop :=
  List.Forall₂ (fun v w => w.name = v.name ∧ w.served = v.served ∧
    ∃ t, w.schema? = some t ∧ Schema.Equips fields (v.schema?.getD (Schema.typed "object")) t)
    x.versions r.versions

/-- The definition with the schemas of a resource for those of its versions. -/
def withSchemasOf (x : CompositeDefinition) (r : ResourceDefinition) : CompositeDefinition :=
  { x with
    versions := x.versions.zipWith (fun v w => { v with validation := w.validation }) r.versions }

variable {x : CompositeDefinition} {d : Derived}

theorem deriveVersion_eq (role : Role) (v : CompositeVersion) :
    (deriveVersion role v).schema? =
      some ((v.schema?.getD (Schema.typed "object")).equipped role.fields) := rfl

theorem publishes_deriveAs (x : CompositeDefinition) (role : Role) (n : Names) :
    x.Publishes role.fields (x.deriveAs role n) := by
  rw [Publishes, deriveAs, List.forall₂_map_right_iff, List.forall₂_same]
  exact fun v _ => ⟨rfl, rfl, _, deriveVersion_eq role v, Schema.equips_equipped _ _⟩

theorem schemas_deriveAs (x : CompositeDefinition) (role : Role) (n : Names) :
    (x.deriveAs role n).versions.map (·.schema?) = (x.versions.map (·.schema?)).map fun schema =>
      some ((schema.getD (Schema.typed "object")).equipped role.fields) := by
  rw [deriveAs, List.map_map, List.map_map]
  rfl

/-- The schemas of a derived resource have all that would be added to them. -/
theorem schemas_deriveAs_of_derived {y : CompositeDefinition} {role : Role} {n n' : Names}
    (h : y.versions.map (·.schema?) = (x.deriveAs role n).versions.map (·.schema?)) :
    (y.deriveAs role n').versions.map (·.schema?) =
      (x.deriveAs role n).versions.map (·.schema?) := by
  rw [schemas_deriveAs y, h, schemas_deriveAs x, List.map_map]
  refine List.map_congr_left fun schema _ => ?_
  simp only [Function.comp_apply, Option.getD_some, Schema.equipped_equipped]

theorem versions_withSchemasOf (x : CompositeDefinition) (role : Role) (n : Names) :
    (x.withSchemasOf (x.deriveAs role n)).versions =
      x.versions.map fun v => { v with validation := (deriveVersion role v).validation } := by
  rw [withSchemasOf, deriveAs, List.zipWith_map_right, List.zipWith_self]

theorem deriveAs_withSchemasOf (x : CompositeDefinition) (role : Role) (n n' : Names) :
    (x.withSchemasOf (x.deriveAs role n)).deriveAs role n' = x.deriveAs role n' := by
  have hversions : (x.withSchemasOf (x.deriveAs role n)).versions.map (deriveVersion role) =
      x.versions.map (deriveVersion role) := by
    rw [versions_withSchemasOf, List.map_map]
    refine List.map_congr_left fun v _ => ?_
    have hagain := Schema.equipped_equipped role.fields (v.schema?.getD (Schema.typed "object"))
    exact congrArg (fun t => ({ deriveVersion role v with validation := some ⟨some t⟩ } :
      ResourceVersion)) hagain
  rw [deriveAs, hversions]
  rfl

theorem exists_referenceable_withSchemasOf {role : Role} {n : Names}
    (h : ∃ v, x.referenceableVersion? = some v) :
    ∃ v, (x.withSchemasOf (x.deriveAs role n)).referenceableVersion? = some v := by
  obtain ⟨v, hv⟩ := h
  refine ⟨{ v with validation := (deriveVersion role v).validation }, ?_⟩
  rw [referenceableVersion?, versions_withSchemasOf, List.find?_map]
  exact congrArg _ hv

/-- A derived resource keeps all that the schemas of its definition say and only adds fields that
they do not have; from schemas that were derived, the same are derived. -/
theorem derive_onlyAdds (h : x.derive = .ok d) :
    x.Publishes Machinery.compositeFields d.composite ∧
      (∀ r ∈ d.claim, x.Publishes Machinery.claimFields r) ∧
      d.claim.isSome = x.claimNames.isSome ∧
      (∃ again, (x.withSchemasOf d.composite).derive = .ok again ∧
        again.composite = d.composite) ∧
      ∀ (y : CompositeDefinition) (again : Derived), y.derive = .ok again →
        y.versions.map (·.schema?) = d.composite.versions.map (·.schema?) →
          again.composite.versions.map (·.schema?) = d.composite.versions.map (·.schema?) := by
  obtain ⟨hgroup, hkind, hreferenceable, rfl⟩ := derive_eq_ok.mp h
  refine ⟨publishes_deriveAs x composite _, ?_, by simp, ?_, ?_⟩
  · intro r hr
    obtain ⟨names, _, rfl⟩ := Option.map_eq_some_iff.mp hr
    exact publishes_deriveAs x claim names
  · refine ⟨_, derive_eq_ok.mpr ⟨hgroup, hkind,
      exists_referenceable_withSchemasOf hreferenceable, rfl⟩, ?_⟩
    exact deriveAs_withSchemasOf x composite _ _
  · intro y again hy hschemas
    obtain ⟨_, _, _, rfl⟩ := derive_eq_ok.mp hy
    exact schemas_deriveAs_of_derived hschemas

/-- The schema has no type, and a text under the name that a composite keeps its claim under. -/
def ownClaimRef : CompositeDefinition where
  group := "a.b"
  names := { kind := "XK", plural := "xks" }
  claimNames := some { kind := "K", plural := "ks" }
  versions := [{
    name := "v1"
    served := true
    referenceable := true
    validation := some ⟨some (({} : Schema).withProperty "spec"
      (({} : Schema).withProperty "claimRef" (Schema.typed "string")))⟩ }]

theorem ownClaimRef_onlyAdds :
    ∃ d, ownClaimRef.derive = .ok d ∧ ownClaimRef.Publishes Machinery.compositeFields d.composite ∧
      (∃ r ∈ d.claim, ownClaimRef.Publishes Machinery.claimFields r) ∧
      ∃ again, (ownClaimRef.withSchemasOf d.composite).derive = .ok again ∧
        again.composite = d.composite := by
  have hok : ∃ d, ownClaimRef.derive = .ok d :=
    ⟨_, derive_eq_ok.mpr ⟨by decide, by decide, ⟨_, rfl⟩, rfl⟩⟩
  obtain ⟨d, hd⟩ := hok
  obtain ⟨hcomposite, hclaim, hoffered, hagain, _⟩ := derive_onlyAdds hd
  obtain ⟨r, hr⟩ := Option.isSome_iff_exists.mp (hoffered.trans rfl)
  exact ⟨d, hd, hcomposite, ⟨r, hr, hclaim r hr⟩, hagain⟩

end CompositeDefinition

end ResourceModels
