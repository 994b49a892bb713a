import ResourceModels.Proofs.Dict
import ResourceModels.Schema

/-!
# Schemas within schemas

The schemas within a schema stand at positions in it, and a property holds throughout a schema if it
holds of each of them.
-/

/-!
## Positions in a schema

A schema within a schema is found by the parts that lead to it. A change of all schemas that leaves
the parts of each as they are keeps every position and changes the schema that stands there.
-/

namespace ResourceModels.Schema

/-- A part of a schema, by the keyword that holds it. -/
inductive Place
  | property (name : String)
  | items
  | additional
  | allOf (index : Nat)
  | anyOf (index : Nat)
  | oneOf (index : Nat)
  | not
deriving DecidableEq, Repr

def extraPart? : Option (Extra Schema) → Option Schema
  | some (.schema s) => some s
  | _ => none

def part? (s : Schema) : Place → Option Schema
  | .property name => Dict.get? s.properties name
  | .items => s.items
  | .additional => extraPart? s.additional
  | .allOf index => s.allOf[index]?
  | .anyOf index => s.anyOf[index]?
  | .oneOf index => s.oneOf[index]?
  | .not => s.not

/-- The schema at a position, outermost part first. -/
def at? (s : Schema) : List Place → Option Schema
  | [] => some s
  | place :: rest => (s.part? place).bind fun part => part.at? rest

section

variable {f : Schema → Schema}

theorem mapNamed_eq (properties : List (String × Schema)) :
    mapNamed f properties = Dict.mapValues (mapNodes f) properties := by
  induction properties with
  | nil => rfl
  | cons property rest ih =>
    rw [mapNamed, ih]
    rfl

theorem mapList_eq (members : List Schema) : mapList f members = members.map (mapNodes f) := by
  induction members with
  | nil => rfl
  | cons member rest ih => rw [mapList, ih, List.map_cons]

theorem mapOption_eq (part : Option Schema) : mapOption f part = part.map (mapNodes f) := by
  cases part <;> rfl

theorem extraPart?_mapExtra (additional : Option (Extra Schema)) :
    extraPart? (mapExtra f additional) = (extraPart? additional).map (mapNodes f) := by
  rcases additional with _ | (_ | _) <;> rfl

/-- The schema with all schemas within it changed, before it is changed itself. -/
def mapParts (f : Schema → Schema) (s : Schema) : Schema :=
  ⟨s.keywords, mapNamed f s.properties, mapOption f s.items, mapExtra f s.additional,
    mapList f s.allOf, mapList f s.anyOf, mapList f s.oneOf, mapOption f s.not⟩

theorem mapNodes_eq (s : Schema) : mapNodes f s = f (mapParts f s) := by
  obtain ⟨k, properties, items, additional, allOf, anyOf, oneOf, not⟩ := s
  rfl

theorem part?_mapParts (s : Schema) (place : Place) :
    (mapParts f s).part? place = (s.part? place).map (mapNodes f) := by
  cases place with
  | property name => simp only [part?, mapParts, mapNamed_eq, Dict.get?_mapValues]
  | items => exact mapOption_eq s.items
  | additional => exact extraPart?_mapExtra s.additional
  | allOf index => simp only [part?, mapParts, mapList_eq, List.getElem?_map]
  | anyOf index => simp only [part?, mapParts, mapList_eq, List.getElem?_map]
  | oneOf index => simp only [part?, mapParts, mapList_eq, List.getElem?_map]
  | not => exact mapOption_eq s.not

/-- A change of one schema that leaves its parts as they are. -/
def KeepsParts (f : Schema → Schema) : Prop := ∀ s place, (f s).part? place = s.part? place

theorem part?_mapNodes (hf : KeepsParts f) (s : Schema) (place : Place) :
    (mapNodes f s).part? place = (s.part? place).map (mapNodes f) := by
  rw [mapNodes_eq, hf, part?_mapParts]

theorem at?_mapNodes (hf : KeepsParts f) (s : Schema) (position : List Place) :
    (mapNodes f s).at? position = (s.at? position).map (mapNodes f) := by
  induction position generalizing s with
  | nil => rfl
  | cons place rest ih =>
    rw [at?, at?, part?_mapNodes hf]
    cases s.part? place with
    | none => rfl
    | some part => exact ih part

end

end ResourceModels.Schema

/-!
## What holds throughout a schema

The nodes of a schema are the schema itself and the nodes of its parts. A property of keywords holds
throughout a schema if it holds at every node, and a change of all nodes that adds no parts takes
one such property to another.
-/

namespace ResourceModels

def Extra.map {σ τ : Type} (φ : σ → τ) : Extra σ → Extra τ
  | .flag b => .flag b
  | .schema s => .schema (φ s)

namespace Schema

def parts (s : Schema) : List Schema :=
  s.properties.map (·.2) ++ s.items.toList ++ (extraPart? s.additional).toList ++ s.allOf ++
    s.anyOf ++ s.oneOf ++ s.not.toList

theorem mem_parts {s part : Schema} : part ∈ s.parts ↔
    part ∈ s.properties.map (·.2) ∨ s.items = some part ∨ extraPart? s.additional = some part ∨
      part ∈ s.allOf ∨ part ∈ s.anyOf ∨ part ∈ s.oneOf ∨ s.not = some part := by
  simp only [parts, List.mem_append, Option.mem_toList, or_assoc]

theorem sizeOf_lt_of_mem_parts {s part : Schema} (h : part ∈ s.parts) : sizeOf part < sizeOf s := by
  have hm := mem_parts.mp h
  obtain ⟨k, properties, items, additional, allOf, anyOf, oneOf, not⟩ := s
  simp only [Schema.mk.sizeOf_spec]
  dsimp only at hm
  rcases hm with hm | rfl | hm | hm | hm | hm | rfl
  · obtain ⟨⟨name, s⟩, hmem, rfl⟩ := List.mem_map.mp hm
    have hlt := List.sizeOf_lt_of_mem hmem
    simp only [Prod.mk.sizeOf_spec] at hlt
    dsimp only
    omega
  · simp only [Option.some.sizeOf_spec]
    omega
  · unfold extraPart? at hm
    split at hm
    · cases hm
      simp only [Option.some.sizeOf_spec, Extra.schema.sizeOf_spec]
      omega
    · cases hm
  · have hlt := List.sizeOf_lt_of_mem hm
    omega
  · have hlt := List.sizeOf_lt_of_mem hm
    omega
  · have hlt := List.sizeOf_lt_of_mem hm
    omega
  · simp only [Option.some.sizeOf_spec]
    omega

theorem parts_induction {P : Schema → Prop} (step : ∀ s, (∀ part ∈ s.parts, P part) → P s)
    (s : Schema) : P s :=
  step s fun part _ => parts_induction step part
termination_by sizeOf s
decreasing_by exact sizeOf_lt_of_mem_parts ‹_›

theorem namedNodes_eq (properties : List (String × Schema)) :
    namedNodes properties = (properties.map (·.2)).flatMap nodes := by
  induction properties with
  | nil => rfl
  | cons property rest ih => rw [namedNodes, ih, List.map_cons, List.flatMap_cons]

theorem listNodes_eq (members : List Schema) : listNodes members = members.flatMap nodes := by
  induction members with
  | nil => rfl
  | cons member rest ih => rw [listNodes, ih, List.flatMap_cons]

theorem optionNodes_eq (part : Option Schema) : optionNodes part = part.toList.flatMap nodes := by
  cases part with
  | none => rfl
  | some s => simp [optionNodes]

theorem extraNodes_eq (additional : Option (Extra Schema)) :
    extraNodes additional = (extraPart? additional).toList.flatMap nodes := by
  rcases additional with _ | (_ | s)
  · rfl
  · rfl
  · simp [extraNodes, extraPart?]

theorem nodes_eq (s : Schema) : s.nodes = s :: s.parts.flatMap nodes := by
  obtain ⟨k, properties, items, additional, allOf, anyOf, oneOf, not⟩ := s
  simp only [nodes, namedNodes_eq, listNodes_eq, optionNodes_eq, extraNodes_eq, parts,
    List.flatMap_append]

theorem self_mem_nodes (s : Schema) : s ∈ s.nodes := by
  rw [nodes_eq]
  exact List.mem_cons_self

theorem nodes_subset_of_mem_parts {s part : Schema} (h : part ∈ s.parts) :
    part.nodes ⊆ s.nodes := by
  rw [nodes_eq s]
  exact fun n hn => List.mem_cons_of_mem _ (List.mem_flatMap.mpr ⟨part, h, hn⟩)

def Throughout (P : Keywords → Prop) (s : Schema) : Prop := ∀ n ∈ s.nodes, P n.keywords

instance (P : Keywords → Prop) [DecidablePred P] (s : Schema) : Decidable (s.Throughout P) :=
  inferInstanceAs (Decidable (∀ n ∈ s.nodes, P n.keywords))

section

variable {P Q : Keywords → Prop} {s : Schema}

theorem throughout_iff :
    Throughout P s ↔ P s.keywords ∧ ∀ part ∈ s.parts, Throughout P part := by
  simp only [Throughout, nodes_eq s, List.forall_mem_cons, List.forall_mem_flatMap]

theorem Throughout.keywords (h : Throughout P s) : P s.keywords := (throughout_iff.mp h).1

theorem Throughout.part (h : Throughout P s) {part : Schema} (hp : part ∈ s.parts) :
    Throughout P part := (throughout_iff.mp h).2 part hp

theorem Throughout.imp (h : Throughout P s) (hPQ : ∀ k, P k → Q k) : Throughout Q s :=
  fun n hn => hPQ n.keywords (h n hn)

theorem throughout_of_parts_nil (hs : s.parts = []) (h : P s.keywords) : Throughout P s := by
  rw [throughout_iff, hs]
  exact ⟨h, fun _ hp => absurd hp List.not_mem_nil⟩

theorem Throughout.withKeywords (h : Throughout P s) {k : Keywords} (hk : P k) :
    Throughout P { s with keywords := k } :=
  throughout_iff.mpr ⟨hk, fun _ hp => h.part hp⟩

theorem Throughout.withProperty (h : Throughout P s) (name : String) {p : Schema}
    (hp : Throughout P p) : Throughout P (s.withProperty name p) := by
  refine throughout_iff.mpr ⟨h.keywords, fun part hpart => ?_⟩
  rcases mem_parts.mp hpart with hpart | hpart
  · obtain ⟨property, hproperty, rfl⟩ := List.mem_map.mp hpart
    rcases Dict.mem_insert hproperty with rfl | hproperty
    · exact hp
    · exact h.part (mem_parts.mpr (.inl (List.mem_map_of_mem hproperty)))
  · exact h.part (mem_parts.mpr (.inr hpart))

end

/-- The schema with each of its parts changed. -/
def withParts (φ : Schema → Schema) (s : Schema) : Schema :=
  { s with
    properties := Dict.mapValues φ s.properties
    items := s.items.map φ
    additional := s.additional.map (Extra.map φ)
    allOf := s.allOf.map φ
    anyOf := s.anyOf.map φ
    oneOf := s.oneOf.map φ
    not := s.not.map φ }

section

variable {f : Schema → Schema} {s : Schema}

theorem mapExtra_eq (additional : Option (Extra Schema)) :
    mapExtra f additional = additional.map (Extra.map (mapNodes f)) := by
  rcases additional with _ | (_ | _) <;> rfl

theorem extraPart?_map (φ : Schema → Schema) (additional : Option (Extra Schema)) :
    extraPart? (additional.map (Extra.map φ)) = (extraPart? additional).map φ := by
  rcases additional with _ | (_ | _) <;> rfl

theorem mapNodes_eq_withParts (s : Schema) : mapNodes f s = f (s.withParts (mapNodes f)) := by
  rw [mapNodes_eq, mapParts, withParts]
  simp only [mapNamed_eq, mapOption_eq, mapExtra_eq, mapList_eq]

theorem parts_withParts (φ : Schema → Schema) (s : Schema) :
    (s.withParts φ).parts = s.parts.map φ := by
  simp only [parts, withParts, Dict.mapValues, extraPart?_map, List.map_append, List.map_map,
    Option.toList_map, Function.comp_def]

theorem withParts_congr {φ ψ : Schema → Schema} (h : ∀ part ∈ s.parts, φ part = ψ part) :
    s.withParts φ = s.withParts ψ := by
  have hpart : ∀ part, (part ∈ s.properties.map (·.2) ∨ s.items = some part ∨
      extraPart? s.additional = some part ∨ part ∈ s.allOf ∨ part ∈ s.anyOf ∨ part ∈ s.oneOf ∨
        s.not = some part) → φ part = ψ part := fun part hm => h part (mem_parts.mpr hm)
  have hproperties : Dict.mapValues φ s.properties = Dict.mapValues ψ s.properties := by
    apply List.map_congr_left
    intro property hm
    rw [hpart property.2 (.inl (List.mem_map_of_mem hm))]
  have hadditional : s.additional.map (Extra.map φ) = s.additional.map (Extra.map ψ) := by
    cases ha : s.additional with
    | none => rfl
    | some extra =>
      cases extra with
      | flag b => rfl
      | schema part => simp only [Option.map_some, Extra.map, hpart part (by simp [ha, extraPart?])]
  have hoption : ∀ o : Option Schema, (∀ part, o = some part → φ part = ψ part) →
      o.map φ = o.map ψ := by
    intro o ho
    cases o with
    | none => rfl
    | some part => rw [Option.map_some, Option.map_some, ho part rfl]
  have hlist : ∀ l : List Schema, (∀ part ∈ l, φ part = ψ part) → l.map φ = l.map ψ :=
    fun l hl => List.map_congr_left hl
  unfold withParts
  rw [hproperties, hadditional, hoption s.items fun part hm => hpart part (by simp [hm]),
    hoption s.not fun part hm => hpart part (by simp [hm]),
    hlist s.allOf fun part hm => hpart part (by simp [hm]),
    hlist s.anyOf fun part hm => hpart part (by simp [hm]),
    hlist s.oneOf fun part hm => hpart part (by simp [hm])]

theorem withParts_withParts (φ ψ : Schema → Schema) (s : Schema) :
    (s.withParts φ).withParts ψ = s.withParts fun part => ψ (φ part) := by
  have hadditional : (s.additional.map (Extra.map φ)).map (Extra.map ψ) =
      s.additional.map (Extra.map fun part => ψ (φ part)) := by
    rcases s.additional with _ | (_ | _) <;> rfl
  simp only [withParts, hadditional, Dict.mapValues, List.map_map, Option.map_map,
    Function.comp_def]

/-- Changing the keywords everywhere first may be done on the way. -/
theorem mapNodes_mapKeywords (g : Keywords → Keywords) (s : Schema) :
    mapNodes f (mapKeywords g s) = mapNodes (fun s => f { s with keywords := g s.keywords }) s := by
  induction s using parts_induction with
  | step s ih =>
    rw [mapKeywords, mapNodes_eq_withParts (f := fun s => f { s with keywords := g s.keywords }),
      mapNodes_eq_withParts (f := fun s => { s with keywords := g s.keywords }),
      mapNodes_eq_withParts (f := f), ← withParts_congr ih]
    have hparts := withParts_withParts (mapKeywords g) (mapNodes f) s
    exact congrArg (fun parts : Schema => f { parts with keywords := g s.keywords }) hparts

theorem withParts_id (s : Schema) : (s.withParts fun part => part) = s := by
  obtain ⟨k, properties, items, additional, allOf, anyOf, oneOf, not⟩ := s
  have hadditional : additional.map (Extra.map fun part => part) = additional := by
    rcases additional with _ | (_ | _) <;> rfl
  simp only [withParts, hadditional, Dict.mapValues, List.map_id', Option.map_id']

/-- A change of keywords keeps a schema exactly if it keeps the keywords throughout. -/
theorem mapKeywords_eq_self_iff {g : Keywords → Keywords} :
    mapKeywords g s = s ↔ s.Throughout fun k => g k = k := by
  induction s using parts_induction with
  | step s ih =>
    have hown : mapKeywords g s = { s.withParts (mapKeywords g) with keywords := g s.keywords } :=
      mapNodes_eq_withParts s
    rw [throughout_iff]
    constructor
    · intro h
      rw [hown] at h
      have hparts := congrArg parts h
      change (s.withParts (mapKeywords g)).parts = s.parts at hparts
      have hmap : s.parts.map (mapKeywords g) = s.parts.map fun part => part := by
        rw [List.map_id', ← parts_withParts, hparts]
      refine ⟨congrArg keywords h, fun part hp => (ih part hp).mp ?_⟩
      exact List.map_inj_left.mp hmap part hp
    · rintro ⟨hkeywords, hparts⟩
      have hkeep : s.withParts (mapKeywords g) = s :=
        (withParts_congr fun part hp => (ih part hp).mpr (hparts part hp)).trans (withParts_id s)
      rw [hown, hkeep, hkeywords]
      cases s
      rfl

theorem mapKeywords_id (s : Schema) : mapKeywords (fun k => k) s = s :=
  mapKeywords_eq_self_iff.mpr fun _ _ => rfl

/-- What holds at each node holds of the changed node after a change that adds no parts. -/
theorem Throughout.mapNodes {P Q : Keywords → Prop} (h : Throughout P s)
    (hparts : ∀ s, (f s).parts ⊆ s.parts) (hkeywords : ∀ s, P s.keywords → Q (f s).keywords) :
    Throughout Q (mapNodes f s) := by
  induction s using parts_induction with
  | step s ih =>
    rw [mapNodes_eq_withParts, throughout_iff]
    refine ⟨hkeywords (s.withParts (Schema.mapNodes f)) h.keywords, ?_⟩
    intro part hp
    have hmem := hparts _ hp
    rw [parts_withParts] at hmem
    obtain ⟨own, hown, rfl⟩ := List.mem_map.mp hmem
    exact ih own hown (h.part hown)

theorem Throughout.mapKeywords {P Q : Keywords → Prop} {g : Keywords → Keywords}
    (h : Throughout P s) (hg : ∀ k, P k → Q (g k)) : Throughout Q (mapKeywords g s) :=
  h.mapNodes (fun _ _ hp => hp) fun s => hg s.keywords

end

end Schema

end ResourceModels
