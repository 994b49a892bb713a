import ResourceModels.Proofs.Go.Closed

/-!
# Types of the shared package

A kind file takes a type from the shared package for every schema that refers to a shared component,
by the name of that component. Whether there is such a type is not looked at, and neither is whether
the file of a kind takes the place of the shared package. So a name dangles exactly where a document
uses a component that the package has no type for.
-/

namespace ResourceModels.Go

open FileStore (lookup?)
open Schema (Throughout)

namespace Emission

/-- The same in all that the form of a schema is found by. -/
structure Alike (k k' : Keywords) : Prop where
  spelledOut : spelledOut? k' = spelledOut? k
  reference : k'.reference = k.reference
  typeName : k'.typeName = k.typeName
  format : k'.format = k.format
  values : k'.values = k.values
  flexible : isIntOrText k' = isIntOrText k
  unknown : keepsUnknown k' = keepsUnknown k

/-- The form with the schemas in it changed, by where they stand. -/
def Form.mapParts (sole items values : Schema → Schema) : Form → Form
  | .sole member => .sole (sole member)
  | .array part => .array (part.map items)
  | .map part => .map (part.map values)
  | f => f

section

variable {s s' : Schema} {φ ψ χ : Schema → Schema}

theorem isStruct_congr (hk : Alike s.keywords s'.keywords)
    (hp : s'.properties.isEmpty = s.properties.isEmpty) : isStruct s' = isStruct s := by
  rw [isStruct, isStruct, hp, Keywords.isType, Keywords.isType, hk.typeName]

theorem isEnumeration_congr (hk : Alike s.keywords s'.keywords) :
    isEnumeration s'.keywords = isEnumeration s.keywords := by
  rw [isEnumeration, isEnumeration, Keywords.isType, Keywords.isType, hk.typeName, hk.format,
    hk.values]

theorem ownForm_eq_map (hk : Alike s.keywords s'.keywords)
    (hp : s'.properties.isEmpty = s.properties.isEmpty) (hi : s'.items = s.items.map ψ)
    (ha : s'.additional = s.additional.map (Extra.map χ)) :
    ownForm s' = (ownForm s).mapParts φ ψ χ := by
  have hscalar : scalar? s'.keywords = scalar? s.keywords := by
    rw [scalar?, scalar?, hk.typeName, hk.format]
  have hvalue : valueSchema? s'.additional = (valueSchema? s.additional).map χ := by
    rw [← extraPart?_eq, ha, Schema.extraPart?_map, extraPart?_eq]
  have htype : formOfType s' s'.keywords.typeName =
      (formOfType s s.keywords.typeName).mapParts φ ψ χ := by
    rw [hk.typeName]
    unfold formOfType
    split
    · rfl
    · rw [hi]
      rfl
    · rw [hk.unknown, hvalue]
      split <;> rfl
    · rfl
  rw [ownForm, ownForm, hk.flexible, isStruct_congr hk hp, isEnumeration_congr hk, hscalar, htype]
  split
  · rfl
  · split
    · rfl
    · split
      · rfl
      · cases scalar? s.keywords <;> rfl

theorem form_eq_map (hk : Alike s.keywords s'.keywords)
    (hp : s'.properties.isEmpty = s.properties.isEmpty) (hi : s'.items = s.items.map ψ)
    (ha : s'.additional = s.additional.map (Extra.map χ)) (hm : s'.allOf = s.allOf.map φ) :
    form s' = (form s).mapParts φ ψ χ := by
  have hsole : soleMember? s' = (soleMember? s).map φ := by
    rw [soleMember?, soleMember?, hp, hm]
    split
    · rcases s.allOf with _ | ⟨member, _ | ⟨second, rest⟩⟩ <;> rfl
    · rfl
  rw [form, form, hk.spelledOut, hk.reference, hsole, ownForm_eq_map (φ := φ) hk hp hi ha]
  rcases spelledOut? s.keywords with _ | ⟨text, source⟩
  · cases s.keywords.reference with
    | some reference => rfl
    | none => cases soleMember? s <;> rfl
  · rfl

end

end Emission

open Emission (Takes AnyTakes form)

/-- A schema refers to a shared component if it does so itself or a part does that its type is found
by. A number is a number whatever its parts are. -/
inductive UsesShared : Schema → String → Prop
  | here {s : Schema} {target : String} (h : sharedTarget? s = some target) : UsesShared s target
  | within {s part : Schema} {target : String} (hs : sharedTarget? s = none)
      (hn : s.keywords.isType "number" = false) (hp : part ∈ (form s).parts s)
      (h : UsesShared part target) : UsesShared s target

theorem usesShared_iff {s : Schema} {target : String} :
    UsesShared s target ↔ sharedTarget? s = some target ∨
      sharedTarget? s = none ∧ s.keywords.isType "number" = false ∧
        ∃ part ∈ (form s).parts s, UsesShared part target := by
  constructor
  · intro h
    cases h with
    | here h => exact .inl h
    | within hs hn hp h => exact .inr ⟨hs, hn, _, hp, h⟩
  · rintro (h | ⟨hs, hn, part, hp, h⟩)
    · exact .here h
    · exact .within hs hn hp h

theorem usesShared_of_some {s : Schema} {own target : String} (h : sharedTarget? s = some own) :
    UsesShared s target ↔ target = own := by
  rw [usesShared_iff, h, Option.some.injEq, eq_comm]
  exact or_iff_left nofun

theorem not_usesShared_number {s : Schema} {target : String} (h : sharedTarget? s = none)
    (hn : s.keywords.isType "number" = true) : ¬UsesShared s target := by
  rw [usesShared_iff, h, hn]
  simp

theorem usesShared_of_none {s : Schema} {target : String} (h : sharedTarget? s = none)
    (hn : s.keywords.isType "number" = false) :
    UsesShared s target ↔ ∃ part ∈ (form s).parts s, UsesShared part target := by
  rw [usesShared_iff, h, hn]
  simp

/-- A schema and what naming makes of it. -/
inductive Renamed : Schema → Schema → Prop
  | same (s : Schema) : Renamed s s
  | named (name : String) (s : Schema) : Renamed s (Go.named name s)
  | property (name : String) (s : Schema) : Renamed s (nameProperty name s)

theorem alike_setExtension {k : Keywords} {key : String} (value : Json)
    (htype : key ≠ typeKey) (himport : key ≠ importKey)
    (hflexible : key ≠ "x-kubernetes-int-or-string")
    (hunknown : key ≠ "x-kubernetes-preserve-unknown-fields") :
    Emission.Alike k (k.setExtension key value) := by
  refine ⟨?_, rfl, rfl, rfl, rfl, ?_, ?_⟩
  · simp only [Emission.spelledOut?, Keywords.extensionText?, extension?_setExtension, if_neg htype,
      if_neg himport]
  · rw [Emission.isIntOrText, Emission.isIntOrText, Keywords.extensionFlag, Keywords.extensionFlag,
      extension?_setExtension, if_neg hflexible]
  · rw [Emission.keepsUnknown, Emission.keepsUnknown, Keywords.extensionFlag,
      Keywords.extensionFlag, extension?_setExtension, if_neg hunknown]

theorem alike_withTypeName (k : Keywords) (name : String) :
    Emission.Alike k (Keywords.withTypeName k name) :=
  alike_setExtension _ (by decide) (by decide) (by decide) (by decide)

theorem isEmpty_nameProperties (base : String) (properties : List (String × Schema)) :
    (nameProperties base properties).isEmpty = properties.isEmpty := by
  cases properties <;> rfl

theorem forall₂_nameProperties (base : String) (properties : List (String × Schema)) :
    List.Forall₂ Renamed (properties.map (·.2)) ((nameProperties base properties).map (·.2)) := by
  rw [nameProperties_eq, List.map_map, List.forall₂_map_left_iff, List.forall₂_map_right_iff,
    List.forall₂_same]
  exact fun p _ => .property _ p.2

theorem forall₂_renamed_same (schemas : List Schema) : List.Forall₂ Renamed schemas schemas :=
  List.forall₂_same.mpr fun s _ => .same s

theorem extraMap_id (additional : Option (Extra Schema)) :
    additional = additional.map (Extra.map id) := by
  rcases additional with _ | (_ | _) <;> rfl

theorem form_named (name : String) (s : Schema) : form (Go.named name s) = form s := by
  have hform : form (Go.named name s) = (form s).mapParts id id id :=
    Emission.form_eq_map (alike_withTypeName s.keywords name)
      (isEmpty_nameProperties name s.properties) (by simp [named]) (extraMap_id s.additional)
      (by simp [named])
  rw [hform]
  cases form s <;> simp [Emission.Form.mapParts]

theorem form_nameProperty (name : String) (s : Schema) :
    form (nameProperty name s) = (form s).mapParts id (Go.named name) id := by
  rw [nameProperty_eq]
  exact Emission.form_eq_map (alike_withTypeName s.keywords name)
    (isEmpty_nameProperties name s.properties) rfl (extraMap_id s.additional) (by simp [named])

theorem Renamed.parts {s s' : Schema} (h : Renamed s s') :
    List.Forall₂ Renamed ((form s).parts s) ((form s').parts s') := by
  cases h with
  | same => exact forall₂_renamed_same _
  | named name =>
    rw [form_named]
    cases form s with
    | struct => exact forall₂_nameProperties name s.properties
    | _ => exact forall₂_renamed_same _
  | property name =>
    rw [form_nameProperty]
    cases form s with
    | struct =>
      have hproperties := forall₂_nameProperties name s.properties
      rwa [nameProperty_eq]
    | array items =>
      cases items with
      | none => exact .nil
      | some item => exact .cons (.named name item) .nil
    | map values => cases values <;> exact forall₂_renamed_same _
    | _ => exact forall₂_renamed_same _

theorem Renamed.sharedTarget? {s s' : Schema} (h : Renamed s s') :
    Go.sharedTarget? s' = Go.sharedTarget? s := by
  cases h with
  | same => rfl
  | named => rfl
  | property => rw [nameProperty_eq]; rfl

theorem Renamed.isType {s s' : Schema} (h : Renamed s s') (type : String) :
    s'.keywords.isType type = s.keywords.isType type := by
  cases h with
  | same => rfl
  | named => rfl
  | property => rw [nameProperty_eq]; rfl

theorem exists_mem_congr {α β : Type} {R : α → β → Prop} {P : α → Prop} {Q : β → Prop}
    {l : List α} {l' : List β} (h : List.Forall₂ R l l')
    (hR : ∀ a ∈ l, ∀ b, R a b → (P a ↔ Q b)) : (∃ a ∈ l, P a) ↔ ∃ b ∈ l', Q b := by
  induction h with
  | nil => simp
  | @cons a b rest rest' hab _ ih =>
    have hfirst := hR a List.mem_cons_self b hab
    have hrest := ih fun c hc => hR c (List.mem_cons_of_mem _ hc)
    simp only [List.exists_mem_cons_iff, hfirst, hrest]

theorem usesShared_renamed {s s' : Schema} (h : Renamed s s') {target : String} :
    UsesShared s target ↔ UsesShared s' target := by
  induction s using Emission.form_induction generalizing s' with
  | step s ih =>
    have hparts := exists_mem_congr h.parts fun part hp part' hpart => ih part hp hpart
    rw [usesShared_iff, usesShared_iff, h.sharedTarget?, h.isType, hparts]

/-- A schema that is ready but for its parts: whole, optional and shared. -/
def ready (s : Schema) : Schema := useShared { s with keywords := readied s.keywords }

theorem exists_readied_eq (k : Keywords) :
    ∃ extensions, readied k = { k with required := [], extensions := extensions } := by
  rw [readied]
  split
  · exact ⟨_, rfl⟩
  · exact ⟨_, rfl⟩

theorem reference_readied (k : Keywords) : (readied k).reference = k.reference := by
  obtain ⟨_, h⟩ := exists_readied_eq k
  rw [h]

theorem alike_readied {k : Keywords} (h : k.isType "number" = false) :
    Emission.Alike k (readied k) := by
  rw [readied, h]
  exact ⟨rfl, rfl, rfl, rfl, rfl, rfl, rfl⟩

/-- A schema whose parts are ready. -/
def partsReady (s : Schema) : Schema :=
  { s.withParts (Schema.mapNodes ready) with keywords := readied s.keywords }

theorem mapNodes_ready (s : Schema) : Schema.mapNodes ready s = useShared (partsReady s) :=
  Schema.mapNodes_eq_withParts s

theorem reference_mapNodes_ready (s : Schema) :
    (Schema.mapNodes ready s).keywords.reference = s.keywords.reference := by
  rw [mapNodes_ready]
  cases htarget : sharedTarget? (partsReady s) with
  | none =>
    rw [useShared_of_none htarget]
    exact reference_readied s.keywords
  | some target =>
    rw [useShared_of_some htarget]
    exact reference_readied s.keywords

theorem sharedTarget?_partsReady (s : Schema) : sharedTarget? (partsReady s) = sharedTarget? s := by
  have hwithin : (s.allOf.map (Schema.mapNodes ready)).findSome?
      (fun member => member.keywords.reference) =
        s.allOf.findSome? fun member => member.keywords.reference := by
    rw [List.findSome?_map]
    exact congrArg (List.findSome? · s.allOf) (funext reference_mapNodes_ready)
  rw [sharedTarget?, sharedTarget?]
  dsimp only [partsReady, Schema.withParts]
  rw [hwithin, reference_readied]

theorem spelledOut?_of_lacks {k : Keywords} (h : k.Lacks [typeKey]) :
    Emission.spelledOut? k = none := by
  rw [Emission.spelledOut?, Keywords.extensionText?, h typeKey List.mem_cons_self]
  rfl

theorem parts_mapParts (f : Emission.Form) (s : Schema) :
    (f.mapParts (Schema.mapNodes ready) (Schema.mapNodes ready) (Schema.mapNodes ready)).parts
      (partsReady s) = (f.parts s).map (Schema.mapNodes ready) := by
  cases f with
  | struct =>
    simp [Emission.Form.mapParts, Emission.Form.parts, partsReady, Schema.withParts,
      Dict.mapValues, Function.comp_def]
  | _ => simp [Emission.Form.mapParts, Emission.Form.parts, Option.toList_map]

/-- Where no type is spelled out, none comes from the shared package. -/
theorem taken?_mapParts_ne {s : Schema} (h : s.keywords.Lacks [typeKey]) (φ : Schema → Schema)
    {name : String} {source : Option Emission.Import} :
    ((form s).mapParts φ φ φ).taken? ≠ some (⟨some sharedAlias, name⟩, source) := by
  cases hf : form s with
  | spelledOut text from? =>
    have hspelled := Emission.spelledOut?_of_form hf
    rw [spelledOut?_of_lacks h] at hspelled
    cases hspelled
  | scalar type => cases type <;> simp [Emission.Form.mapParts, Emission.Form.taken?, sharedAlias]
  | _ => simp [Emission.Form.mapParts, Emission.Form.taken?]

def TakesShared (s : Schema) (name : String) : Prop :=
  ∃ source, Takes s ⟨some sharedAlias, name⟩ source

theorem takesShared_of_spelledOut {s : Schema} {text : String} {source : Option Emission.Import}
    (h : Emission.spelledOut? s.keywords = some (text, source)) {name : String} :
    TakesShared s name ↔ TypeName.ofText text = ⟨some sharedAlias, name⟩ := by
  have hform := Emission.form_of_spelledOut? h
  constructor
  · rintro ⟨_, htakes⟩
    rcases Emission.takes_iff.mp htakes with htaken | ⟨part, hp, _⟩
    · rw [hform] at htaken
      exact (Prod.mk.inj (Option.some.inj htaken)).1
    · rw [hform] at hp
      cases hp
  · intro hname
    refine ⟨source, .here ?_⟩
    rw [hform, ← hname]
    rfl

theorem takesShared_iff_parts {s : Schema} {f : Emission.Form} (hf : form s = f) {name : String}
    (htaken : ∀ source, f.taken? ≠ some (⟨some sharedAlias, name⟩, source)) :
    TakesShared s name ↔ ∃ part ∈ f.parts s, TakesShared part name := by
  constructor
  · rintro ⟨source, htakes⟩
    rcases Emission.takes_iff.mp htakes with h | ⟨part, hp, h⟩
    · exact absurd (hf ▸ h) (htaken source)
    · exact ⟨part, hf ▸ hp, source, h⟩
  · rintro ⟨part, hp, source, h⟩
    exact ⟨source, .within (hf ▸ hp) h⟩

theorem spelledOut?_whole {k : Keywords} (h : k.isType "number" = true) :
    ∃ source, Emission.spelledOut? (readied k) = some ("int", source) := by
  have htype : (readied k).extension? typeKey = some (.str "int") := by
    rw [readied, h, if_pos rfl]
    exact (extension?_setExtension ..).trans (if_pos rfl)
  simp [Emission.spelledOut?, Keywords.extensionText?, htype, Json.text?]

theorem ofText_int : TypeName.ofText "int" = ⟨none, "int"⟩ := by decide

/-- Where nothing is spelled out, readied keywords keep the form, whatever becomes of the parts. -/
theorem form_readied {s : Schema} (hn : s.keywords.isType "number" = false) (g : Schema → Schema) :
    form { s.withParts g with keywords := readied s.keywords } = (form s).mapParts g g g := by
  have hproperties : (s.withParts g).properties.isEmpty = s.properties.isEmpty := by
    simp [Schema.withParts, Dict.mapValues]
  exact Emission.form_eq_map (alike_readied hn) hproperties rfl rfl rfl

theorem form_partsReady {s : Schema} (hn : s.keywords.isType "number" = false) :
    form (partsReady s) = (form s).mapParts (Schema.mapNodes ready) (Schema.mapNodes ready)
      (Schema.mapNodes ready) := form_readied hn _

/-- What a prepared schema takes from the shared package. -/
theorem takesShared_ready {s : Schema} (hs : s.Throughout (Keywords.Lacks [typeKey]))
    {name : String} :
    TakesShared (Schema.mapNodes ready s) name ↔
      ∃ target, UsesShared s target ∧ name = shortName target := by
  induction s using Emission.form_induction with
  | step s ih =>
    have hready := sharedTarget?_partsReady s
    rw [mapNodes_ready]
    cases htarget : sharedTarget? s with
    | some own =>
      rw [htarget] at hready
      rw [useShared_of_some hready, takesShared_of_spelledOut (spelledOut?_sharedKeywords _ own),
        ofText_shared]
      simp only [usesShared_of_some htarget, exists_eq_left, TypeName.mk.injEq, true_and]
      exact eq_comm
    | none =>
      rw [htarget] at hready
      rw [useShared_of_none hready]
      cases hn : s.keywords.isType "number" with
      | true =>
        obtain ⟨source, hint⟩ := spelledOut?_whole hn
        rw [takesShared_of_spelledOut (s := partsReady s) hint, ofText_int]
        simp [not_usesShared_number htarget hn]
      | false =>
        rw [takesShared_iff_parts (form_partsReady hn) fun _ => taken?_mapParts_ne hs.keywords _,
          parts_mapParts]
        simp only [usesShared_of_none htarget hn]
        have hpart : ∀ part ∈ (form s).parts s, TakesShared (Schema.mapNodes ready part) name ↔
            ∃ target, UsesShared part target ∧ name = shortName target :=
          fun part hp => ih part hp (hs.part (Emission.mem_parts_of_form hp))
        constructor
        · rintro ⟨_, hmem, htakes⟩
          obtain ⟨part, hp, rfl⟩ := List.mem_map.mp hmem
          obtain ⟨target, huses, hname⟩ := (hpart part hp).mp htakes
          exact ⟨target, ⟨part, hp, huses⟩, hname⟩
        · rintro ⟨target, ⟨part, hp, huses⟩, hname⟩
          exact ⟨_, List.mem_map_of_mem hp, (hpart part hp).mpr ⟨target, huses, hname⟩⟩

/-- The shared components that the types of a document are found by. -/
def DocumentUses (doc : OpenApi) (target : String) : Prop :=
  ∃ c ∈ doc.schemas, Vocabulary.isShared c.1 = false ∧
    ∃ part ∈ Emission.componentParts c.2, UsesShared part target

theorem componentParts_useShared (s : Schema) :
    Emission.componentParts (useShared s) =
      if Emission.isStruct s then s.properties.map (·.2)
      else if Emission.isEnumeration s.keywords then [] else [useShared s] := by
  cases htarget : sharedTarget? s with
  | none => rw [useShared_of_none htarget]; rfl
  | some target => rw [useShared_of_some htarget]; rfl

theorem componentParts_ready (s : Schema) :
    Emission.componentParts (Schema.mapNodes ready s) =
      (Emission.componentParts s).map (Schema.mapNodes ready) := by
  obtain ⟨_, hk⟩ := exists_readied_eq s.keywords
  have hstruct : Emission.isStruct (partsReady s) = Emission.isStruct s := by
    simp [Emission.isStruct, partsReady, hk, Schema.withParts, Dict.mapValues, Keywords.isType]
  have henumeration : Emission.isEnumeration (partsReady s).keywords =
      Emission.isEnumeration s.keywords := by
    simp [Emission.isEnumeration, partsReady, hk, Keywords.isType]
  rw [mapNodes_ready, componentParts_useShared, hstruct, henumeration, Emission.componentParts]
  split
  · simp [partsReady, Schema.withParts, Dict.mapValues]
  · split
    · rfl
    · rw [List.map_singleton, mapNodes_ready]

theorem forall₂_componentParts (name : String) (s : Schema) :
    List.Forall₂ Renamed (Emission.componentParts s) (Emission.componentParts (named name s)) := by
  have hk := alike_withTypeName s.keywords name
  have hstruct : Emission.isStruct (named name s) = Emission.isStruct s :=
    Emission.isStruct_congr hk (isEmpty_nameProperties name s.properties)
  have henumeration : Emission.isEnumeration (named name s).keywords =
      Emission.isEnumeration s.keywords := Emission.isEnumeration_congr hk
  rw [Emission.componentParts, Emission.componentParts, hstruct, henumeration]
  split
  · exact forall₂_nameProperties name s.properties
  · split
    · exact .nil
    · exact .cons (.named name s) .nil

theorem lacks_withTypeName {k : Keywords} (h : k.Lacks [typeKey]) (name : String) :
    (Keywords.withTypeName k name).Lacks [typeKey] := by
  intro key hkey
  rw [List.mem_singleton.mp hkey, Keywords.withTypeName, extension?_setExtension,
    if_neg (by decide)]
  exact h typeKey List.mem_cons_self

theorem schemas_prepare_ready (doc : OpenApi) :
    (prepare doc).schemas = (doc.schemas.filter fun c => !Vocabulary.isShared c.1).map fun c =>
      (c.1, Schema.mapNodes ready (named (shortName c.1) c.2)) := by
  have hready : ∀ s : Schema, Schema.mapNodes useShared (Schema.mapKeywords readied s) =
      Schema.mapNodes ready s := Schema.mapNodes_mapKeywords readied
  rw [schemas_prepare, schemas_prepareShared, Dict.mapValues, List.map_map, List.filter_map]
  simp only [Function.comp_def, hready]

theorem keys_prepare (doc : OpenApi) :
    (prepare doc).schemas.keys = doc.schemas.keys.filter fun name => !Vocabulary.isShared name := by
  rw [schemas_prepare_ready, Dict.keys, Dict.keys, List.map_map, List.filter_map]
  rfl

theorem takesShared_component {s : Schema} (hs : s.Throughout (Keywords.Lacks [typeKey]))
    (component : String) {name : String} :
    (∃ part ∈ Emission.componentParts (Schema.mapNodes ready (named (shortName component) s)),
        TakesShared part name) ↔
      ∃ target, (∃ part ∈ Emission.componentParts s, UsesShared part target) ∧
        name = shortName target := by
  have hnamed : (named (shortName component) s).Throughout (Keywords.Lacks [typeKey]) :=
    (throughout_named (N := fun _ => True) (fun _ _ h => h) (fun _ hk => hk)
      (fun _ _ hk _ => lacks_withTypeName hk _) hs trivial).1
  have huses : ∀ target, (∃ part ∈ Emission.componentParts s, UsesShared part target) ↔
      ∃ part ∈ Emission.componentParts (named (shortName component) s), UsesShared part target :=
    fun target => exists_mem_congr (forall₂_componentParts _ s)
      fun _ _ _ hrenamed => usesShared_renamed hrenamed
  have hready : ∀ part ∈ Emission.componentParts (named (shortName component) s),
      (TakesShared (Schema.mapNodes ready part) name ↔
        ∃ target, UsesShared part target ∧ name = shortName target) :=
    fun part hp => takesShared_ready (throughout_of_componentParts hnamed hp)
  simp only [huses]
  rw [componentParts_ready]
  constructor
  · rintro ⟨_, hmem, htakes⟩
    obtain ⟨part, hp, rfl⟩ := List.mem_map.mp hmem
    obtain ⟨target, hpart, hname⟩ := (hready part hp).mp htakes
    exact ⟨target, ⟨part, hp, hpart⟩, hname⟩
  · rintro ⟨target, ⟨part, hp, hpart⟩, hname⟩
    exact ⟨_, List.mem_map_of_mem hp, (hready part hp).mpr ⟨target, hpart, hname⟩⟩

/-- What the file of a kind takes from the shared package. -/
theorem takesShared_prepare {doc : OpenApi}
    (h : ∀ c ∈ doc.schemas, c.2.Throughout (Keywords.Lacks [typeKey])) {name : String} :
    (∃ source, DocumentTakes (prepare doc) ⟨some sharedAlias, name⟩ source) ↔
      ∃ target, DocumentUses doc target ∧ name = shortName target := by
  constructor
  · rintro ⟨source, part, hp, htakes⟩
    rw [schemas_prepare_ready] at hp
    obtain ⟨_, hmem, hp⟩ := List.mem_flatMap.mp hp
    obtain ⟨c, hc, rfl⟩ := List.mem_map.mp hmem
    obtain ⟨hc, hshared⟩ := List.mem_filter.mp hc
    obtain ⟨target, huses, hname⟩ :=
      (takesShared_component (h c hc) c.1).mp ⟨part, hp, source, htakes⟩
    exact ⟨target, ⟨c, hc, by simpa using hshared, huses⟩, hname⟩
  · rintro ⟨target, ⟨c, hc, hshared, huses⟩, hname⟩
    obtain ⟨part, hp, source, htakes⟩ :=
      (takesShared_component (h c hc) c.1).mpr ⟨target, huses, hname⟩
    refine ⟨source, part, ?_, htakes⟩
    rw [schemas_prepare_ready]
    have hmem : c ∈ doc.schemas.filter fun c => !Vocabulary.isShared c.1 :=
      List.mem_filter.mpr ⟨hc, by simp [hshared]⟩
    exact List.mem_flatMap.mpr ⟨_, List.mem_map_of_mem hmem, hp⟩

end ResourceModels.Go
