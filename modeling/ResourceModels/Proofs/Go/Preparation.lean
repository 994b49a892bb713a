import ResourceModels.Proofs.Collect.Schemas
import ResourceModels.Proofs.Go.TypeNames
import ResourceModels.Proofs.Go.Uses

/-!
# What preparation leaves

A prepared schema names its type by letters and digits. It spells out a type only where it is a
number or refers to a shared component, and the type is then a whole number or comes from the shared
package.
-/

namespace ResourceModels.Go

open Schema (Throughout)

theorem extension?_setExtension (k : Keywords) (key : String) (value : Json) (other : String) :
    (k.setExtension key value).extension? other =
      if key = other then some value else k.extension? other := Dict.get?_insert ..

/-- A schema under a name of its own, which its properties are named after. -/
def named (name : String) (s : Schema) : Schema :=
  { s with
    keywords := Keywords.withTypeName s.keywords name
    properties := nameProperties name s.properties }

theorem nameProperties_eq (base : String) (properties : List (String × Schema)) :
    nameProperties base properties =
      properties.map fun p => (p.1, nameProperty (shortName (base ++ exported p.1)) p.2) := by
  induction properties with
  | nil => rfl
  | cons p rest ih => rw [nameProperties, ih, List.map_cons]

theorem nameItems_eq (name : String) (items : Option Schema) :
    nameItems name items = items.map (named name) := by
  cases items with
  | none => rfl
  | some s =>
    obtain ⟨k, properties, items, additional, allOf, anyOf, oneOf, not⟩ := s
    rfl

theorem nameProperty_eq (name : String) (s : Schema) :
    nameProperty name s = { named name s with items := s.items.map (named name) } := by
  rw [← nameItems_eq]
  obtain ⟨k, properties, items, additional, allOf, anyOf, oneOf, not⟩ := s
  rfl

/-- A property that all schemas have and that a name keeps holds after naming. -/
theorem throughout_named {P Q : Keywords → Prop} {N : String → Prop}
    (hproperty : ∀ base property, N base → N (shortName (base ++ exported property)))
    (hkeep : ∀ k, P k → Q k)
    (hname : ∀ k name, P k → N name → Q (Keywords.withTypeName k name)) {s : Schema}
    (h : s.Throughout P) {name : String} (hn : N name) :
    (named name s).Throughout Q ∧ (nameProperty name s).Throughout Q := by
  induction s using Schema.parts_induction generalizing name with
  | step s ih =>
    have hkeywords : Q (Keywords.withTypeName s.keywords name) :=
      hname s.keywords name h.keywords hn
    have hrest : ∀ part ∈ s.parts, part.Throughout Q := fun part hp => (h.part hp).imp hkeep
    have hproperties : ∀ part ∈ (nameProperties name s.properties).map (·.2),
        part.Throughout Q := by
      intro part hpart
      rw [nameProperties_eq, List.map_map] at hpart
      obtain ⟨p, hp, rfl⟩ := List.mem_map.mp hpart
      have hmem := Schema.mem_parts.mpr (.inl (List.mem_map_of_mem (f := fun q => q.2) hp))
      exact (ih p.2 hmem (h.part hmem) (hproperty _ _ hn)).2
    constructor
    · refine Schema.throughout_iff.mpr ⟨hkeywords, fun part hpart => ?_⟩
      rcases Schema.mem_parts.mp hpart with hpart | hpart
      · exact hproperties part hpart
      · exact hrest part (Schema.mem_parts.mpr (.inr hpart))
    · rw [nameProperty_eq]
      refine Schema.throughout_iff.mpr ⟨hkeywords, fun part hpart => ?_⟩
      rcases Schema.mem_parts.mp hpart with hpart | hitem | hpart
      · exact hproperties part hpart
      · obtain ⟨item, hi, rfl⟩ := Option.map_eq_some_iff.mp hitem
        have hmem := Schema.mem_parts.mpr (.inr (.inl hi))
        exact (ih item hmem (h.part hmem) hn).1
      · exact hrest part (Schema.mem_parts.mpr (.inr (.inr hpart)))

/-- Some types that are taken from elsewhere, with the imports that they need. -/
inductive Known : TypeName → Option Emission.Import → Prop
  | int : Known ⟨none, "int"⟩ none
  | time : Known ⟨some "time", "Time"⟩ (some ("time", none))
  | shared (name : String) : Known ⟨some sharedAlias, name⟩ (some (sharedPackage, some sharedAlias))

structure Settled (k : Keywords) : Prop where
  named : NamedPlainly k
  known : ∀ text source, Emission.spelledOut? k = some (text, source) → Known (.ofText text) source

/-- The extensions that preparation gives a meaning. -/
def goKeys : List String := [typeNameKey, typeKey, importKey]

/-- What holds of keywords before types are taken from the shared package. -/
structure Unshared (k : Keywords) : Prop where
  named : NamedPlainly k
  type : ∀ value, k.extension? typeKey = some value → value = .str "int"
  source : k.extension? importKey = none

theorem namedPlainly_setExtension {k : Keywords} (h : NamedPlainly k) {key : String}
    (hkey : key ≠ typeNameKey) (value : Json) : NamedPlainly (k.setExtension key value) := by
  intro name hname
  rw [Keywords.extensionText?, extension?_setExtension, if_neg hkey] at hname
  exact h name hname

theorem namedPlainly_withTypeName {name : String} (h : IsAlphanumeric name) (k : Keywords) :
    NamedPlainly (Keywords.withTypeName k name) := by
  intro own hown
  rw [Keywords.extensionText?, Keywords.withTypeName, extension?_setExtension, if_pos rfl] at hown
  cases hown
  exact h

theorem Unshared.withTypeName {k : Keywords} (h : Unshared k) {name : String}
    (hn : IsAlphanumeric name) : Unshared (Keywords.withTypeName k name) where
  named := namedPlainly_withTypeName hn k
  type value hvalue := by
    rw [Keywords.withTypeName, extension?_setExtension, if_neg (by decide)] at hvalue
    exact h.type value hvalue
  source := by
    rw [Keywords.withTypeName, extension?_setExtension, if_neg (by decide)]
    exact h.source

theorem Unshared.whole {k : Keywords} (h : Unshared k) :
    Unshared (k.setExtension typeKey (.str "int")) where
  named := namedPlainly_setExtension h.named (by decide) _
  type value hvalue := by
    rw [extension?_setExtension, if_pos rfl] at hvalue
    exact (Option.some.inj hvalue).symm
  source := by
    rw [extension?_setExtension, if_neg (by decide)]
    exact h.source

theorem ofText_shared (name : String) :
    TypeName.ofText (sharedAlias ++ "." ++ name) = ⟨some sharedAlias, name⟩ := by
  have hcut : Text.splitFirst? '.' (sharedAlias ++ "." ++ name) = some (sharedAlias, name) :=
    Text.splitFirst?_eq_some.mpr ⟨rfl, by decide⟩
  rw [TypeName.ofText, hcut]

theorem Unshared.settled {k : Keywords} (h : Unshared k) : Settled k where
  named := h.named
  known text source hspelled := by
    obtain ⟨own, hown, heq⟩ := Option.map_eq_some_iff.mp hspelled
    rw [h.source] at heq
    obtain ⟨value, hvalue, htext⟩ := Option.bind_eq_some_iff.mp hown
    rw [h.type value hvalue] at htext
    cases htext
    cases heq
    exact .int

def sharedKeywords (k : Keywords) (target : String) : Keywords :=
  (k.setExtension typeKey (.str (sharedAlias ++ "." ++ shortName target))).setExtension importKey
    sharedImport

theorem useShared_of_some {s : Schema} {target : String} (h : sharedTarget? s = some target) :
    useShared s = { s with keywords := sharedKeywords s.keywords target, allOf := [] } := by
  rw [useShared, h]
  rfl

theorem useShared_of_none {s : Schema} (h : sharedTarget? s = none) : useShared s = s := by
  rw [useShared, h]

theorem spelledOut?_sharedKeywords (k : Keywords) (target : String) :
    Emission.spelledOut? (sharedKeywords k target) =
      some (sharedAlias ++ "." ++ shortName target, some (sharedPackage, some sharedAlias)) := by
  have htype : (sharedKeywords k target).extension? typeKey =
      some (.str (sharedAlias ++ "." ++ shortName target)) := by
    rw [sharedKeywords, extension?_setExtension, if_neg (by decide), extension?_setExtension,
      if_pos rfl]
  have himport : (sharedKeywords k target).extension? importKey = some sharedImport := by
    rw [sharedKeywords, extension?_setExtension, if_pos rfl]
  have hpath : (sharedImport.get? "path").bind Json.text? = some sharedPackage := by decide
  have hname : (sharedImport.get? "name").bind Json.text? = some sharedAlias := by decide
  simp only [Emission.spelledOut?, Keywords.extensionText?, htype, himport, Option.bind_some,
    Json.text?, Option.map_some]
  rw [Option.bind_eq_bind, Option.bind_some, hpath, hname]
  rfl

theorem parts_useShared (s : Schema) : (useShared s).parts ⊆ s.parts := by
  cases htarget : sharedTarget? s with
  | none =>
    rw [useShared_of_none htarget]
    exact fun _ hp => hp
  | some target =>
    rw [useShared_of_some htarget]
    intro part hp
    rw [Schema.mem_parts] at hp ⊢
    simp only [List.not_mem_nil, false_or] at hp
    tauto

/-- The keywords with which a number is whole and nothing is required. -/
def readied (k : Keywords) : Keywords :=
  let k := if k.isType "number" then k.setExtension typeKey (.str "int") else k
  { k with required := [] }

theorem Unshared.readied {k : Keywords} (h : Unshared k) : Unshared (readied k) := by
  have hnumber :
      Unshared (if k.isType "number" then k.setExtension typeKey (.str "int") else k) := by
    split
    · exact h.whole
    · exact h
  exact ⟨hnumber.named, hnumber.type, hnumber.source⟩

variable {doc : OpenApi}

theorem schemas_prepareShared (doc : OpenApi) :
    (prepareShared doc).schemas = doc.schemas.map fun c =>
      (c.1, Schema.mapKeywords readied (named (shortName c.1) c.2)) := by
  have hfuse : ∀ f g : Keywords → Keywords, ∀ s : Schema,
      Schema.mapKeywords f (Schema.mapKeywords g s) = Schema.mapKeywords (fun k => f (g k)) s :=
    fun f g s => Schema.mapNodes_mapKeywords g s
  simp only [prepareShared, nothingRequired, numbersAreWhole, nameTypes, OpenApi.mapKeywords,
    Dict.mapValues, List.map_map, Function.comp_def, hfuse]
  rfl

theorem schemas_prepare (doc : OpenApi) :
    (prepare doc).schemas = (Dict.mapValues (Schema.mapNodes useShared)
      (prepareShared doc).schemas).filter fun c => !Vocabulary.isShared c.1 := rfl

end ResourceModels.Go
