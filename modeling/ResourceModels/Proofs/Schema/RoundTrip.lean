import ResourceModels.Proofs.Schema.Kept

/-!
# A schema is written as it was read

What is written of a schema that was read is the value it was read from, tidied and in order, and it
is read as the same schema again. Each schema within a value is smaller than the value, so what is
assumed of the schemas under the keywords holds by induction on the size.
-/

namespace ResourceModels.Schema

open Yaml (Value)

variable {d : Dialect} {fields : List (String × Json)} {s : Schema} {key : String}

/-- Every schema that is read from a smaller value than the fields survives. -/
def Smaller (fields : List (String × Json)) : Prop :=
  ∀ part : Json, sizeOf part < sizeOf (Json.obj fields) → ∀ (d : Dialect) (s : Schema),
    d.nullIsEmpty = false → ofValue d (.ofJson part) = .ok s →
      Survives (ofValue d) tidy part s s.toJson

theorem sizeOf_lt_of_get? {j : Json} (h : Dict.get? fields key = some j) :
    sizeOf j < sizeOf (Json.obj fields) :=
  Json.sizeOf_lt_of_mem_parts (List.mem_map_of_mem (Dict.mem_of_get? h))

theorem Smaller.value (h : Smaller fields) (hd : d.nullIsEmpty = false) (j : Json) (s : Schema)
    (hj : Dict.get? fields key = some j) (hs : ofValue d (.ofJson j) = .ok s) :
    Survives (ofValue d) tidy j s s.toJson := h j (sizeOf_lt_of_get? hj) d s hd hs

theorem Smaller.item (h : Smaller fields) (hd : d.nullIsEmpty = false) (j : Json) (s : Schema)
    (hj : ∃ items, Dict.get? fields key = some (.arr items) ∧ j ∈ items)
    (hs : ofValue d (.ofJson j) = .ok s) : Survives (ofValue d) tidy j s s.toJson := by
  obtain ⟨items, hitems, hm⟩ := hj
  have hlt : sizeOf j < sizeOf (Json.arr items) := Json.sizeOf_lt_of_mem_parts hm
  exact h j (hlt.trans (sizeOf_lt_of_get? hitems)) d s hd hs

theorem Smaller.property (h : Smaller fields) (hd : d.nullIsEmpty = false)
    (properties : List (String × Json)) (hp : Dict.get? fields key = some (.obj properties))
    (field : String × Json) (hm : field ∈ properties) (s : Schema)
    (hs : ofValue d (.ofJson field.2) = .ok s) :
    Survives (ofValue d) tidy field.2 s s.toJson := by
  have hlt : sizeOf field.2 < sizeOf (Json.obj properties) :=
    Json.sizeOf_lt_of_mem_parts (List.mem_map_of_mem hm)
  exact h field.2 (hlt.trans (sizeOf_lt_of_get? hp)) d s hd hs

/-- What is written under a keyword is what was given there, tidied, and says the same. -/
structure KeptAt (d : Dialect) (fields : List (String × Json)) (s : Schema) (key : String) :
    Prop where
  tidied : (s.written? key).map Json.sorted =
    ((Dict.get? fields key).map Json.sorted).bind (tidied? key)
  again : Gives d {} s (s.written? key) key
  inOrder : Gives d {} s ((s.written? key).map Json.sorted) key

theorem keptAt_of {α : Type} {read : Value → Except Mismatch α} {blank x : α}
    (h : Kept read blank key (Dict.get? fields key) x (s.written? key))
    (hgives : ∀ given, Gives d {} s given key ↔ slot read blank given = .ok x) :
    KeptAt d fields s key :=
  ⟨h.tidied, (hgives _).mpr h.again, (hgives _).mpr h.inOrder⟩

theorem Takes.keptAt (hd : d.nullIsEmpty = false) (h : Takes d {} fields s)
    (hsmaller : Smaller fields) (hk : key ∈ knownKeywords) : KeptAt d fields s key := by
  have hgives := h.keyword key hk
  have htext : ∀ {key : String} {x : Option String},
      IsOptional key id → slot (Decode.optional (Decode.text d)) none (Dict.get? fields key) = .ok x →
        Kept (Decode.optional (Decode.text d)) none key (Dict.get? fields key) x (x.map .str) :=
    fun hkey hx => kept_optional _ hkey (fun _ _ _ => survives_text) hx
  simp only [knownKeywords, List.mem_cons, List.not_mem_nil, or_false] at hk
  rcases hk with rfl | rfl | rfl | rfl | rfl | rfl | rfl | rfl | rfl | rfl | rfl | rfl | rfl | rfl
  · exact keptAt_of (htext (isOptional_value (by decide)) hgives) fun _ => Iff.rfl
  · exact keptAt_of (htext (isOptional_value (by decide)) hgives) fun _ => Iff.rfl
  · exact keptAt_of (htext (isOptional_value (by decide)) hgives) fun _ => Iff.rfl
  · exact keptAt_of (htext (isOptional_value (by decide)) hgives) fun _ => Iff.rfl
  · exact keptAt_of (kept_properties hd (hsmaller.property hd) hgives) fun _ => Iff.rfl
  · exact keptAt_of (kept_schema "items" (isOptional_schema (by decide)) (hsmaller.value hd) hgives)
      fun _ => Iff.rfl
  · exact keptAt_of (kept_list "required" hd (isList_value (by decide)) (fun _ _ _ => survives_text)
      hgives) fun _ => Iff.rfl
  · exact keptAt_of (kept_schemas "allOf" hd (isList_schema (by decide)) (hsmaller.item hd) hgives)
      fun _ => Iff.rfl
  · exact keptAt_of (kept_schemas "anyOf" hd (isList_schema (by decide)) (hsmaller.item hd) hgives)
      fun _ => Iff.rfl
  · exact keptAt_of (kept_schemas "oneOf" hd (isList_schema (by decide)) (hsmaller.item hd) hgives)
      fun _ => Iff.rfl
  · exact keptAt_of (kept_schema "not" (isOptional_schema (by decide)) (hsmaller.value hd) hgives)
      fun _ => Iff.rfl
  · exact keptAt_of (kept_additional (hsmaller.value rfl) hgives) fun _ => Iff.rfl
  · have hown := kept_list "enum" hd (isList_value (by decide)) (fun _ _ _ => survives_json) hgives
    rw [List.map_id'] at hown
    exact keptAt_of hown fun _ => Iff.rfl
  · have hown := kept_optional "default" (isOptional_value (by decide)) (fun _ _ _ => survives_json)
      hgives
    rw [Option.map_id'] at hown
    exact keptAt_of hown fun _ => Iff.rfl

theorem Takes.extensions_eq (h : Takes d {} fields s) :
    s.keywords.extensions = Dict.ofList (otherFields fields) := by
  obtain ⟨_, hcollected, hextensions⟩ := h.extensions
  cases hcollected
  exact hextensions

theorem get?_ofList_otherFields (fields : List (String × Json)) (key : String) :
    Dict.get? (Dict.ofList (otherFields fields)) key =
      if key ∈ knownKeywords then none else (Dict.get? (Dict.ofList fields) key).map Json.sorted := by
  have hfilter := Dict.get?_ofList_filter (fun key => decide (key ∉ knownKeywords)) fields key
  rw [otherFields, Dict.ofList_mapValues, Dict.get?_mapValues, hfilter]
  by_cases hk : key ∈ knownKeywords <;> simp [hk]

theorem Takes.extension?_eq (h : Takes d {} fields s) (key : String) : s.keywords.extension? key =
    if key ∈ knownKeywords then none else (Dict.get? (Dict.ofList fields) key).map Json.sorted := by
  rw [Keywords.extension?, h.extensions_eq, get?_ofList_otherFields]

theorem Takes.extensionsApart (h : Takes d {} fields s) : s.ExtensionsApart where
  sorted := by
    rw [h.extensions_eq]
    exact Dict.sorted_ofList _
  apart key hm hk := by
    rw [← Dict.isSome_get?_iff] at hm
    have hextension := h.extension?_eq key
    rw [if_pos hk] at hextension
    rw [Keywords.extension?] at hextension
    rw [hextension] at hm
    cases hm

theorem Takes.extension?_inOrder (h : Takes d {} fields s) (key : String) :
    (s.keywords.extension? key).map Json.sorted = s.keywords.extension? key := by
  rw [h.extension?_eq]
  split
  · rfl
  · rw [Option.map_map, Json.sorted_comp_sorted]

/-- A keyword with a meaning is given once, so it is the same whichever is taken. -/
theorem Takes.get?_ofList (h : Takes d {} fields s) (hk : key ∈ knownKeywords) :
    Dict.get? (Dict.ofList fields) key = Dict.get? fields key := by
  have hfilter := Dict.get?_ofList_filter (fun key => decide (key ∈ knownKeywords)) fields key
  have hget := Dict.get?_filter (fun key => decide (key ∈ knownKeywords)) fields key
  have honce : ((fields.filter fun field => decide (field.1 ∈ knownKeywords)).map (·.1)).Nodup := by
    have honce := h.once
    rw [knownFields, List.filter_map] at honce
    exact honce
  rw [if_pos (by simpa using hk)] at hfilter hget
  rw [← hfilter, Dict.get?_ofList_of_nodup honce, hget]

theorem Takes.tidied (h : Takes d {} fields s)
    (hkept : ∀ key ∈ knownKeywords, KeptAt d fields s key) :
    s.toJson.sorted = tidy (Json.obj fields).sorted := by
  have hgiven := (Dict.sorted_ofList fields).mapValues Json.sorted
  rw [toJson, Json.sorted_obj, Json.sorted_obj, tidy, Json.obj.injEq]
  refine ((Dict.sorted_ofList _).mapValues _).ext (sorted_tidyFields hgiven) fun key => ?_
  rw [get?_tidyFields hgiven, Dict.get?_mapValues, Dict.get?_mapValues,
    Dict.get?_ofList_of_nodup h.extensionsApart.keys_nodup, h.extensionsApart.get?_fields]
  split
  · next hk =>
    rw [h.get?_ofList hk]
    exact (hkept key hk).tidied
  · next hk =>
    rw [h.extension?_eq, if_neg hk]
    cases Dict.get? (Dict.ofList fields) key with
    | none => rfl
    | some j =>
      rw [Option.map_some, Option.map_some, Json.sorted_sorted, Option.bind_some,
        tidied?_of_unknown hk]

/-- Fields that say what the schema says under each keyword are read as the schema. -/
theorem takes_of_gives (hnodup : (fields.map (·.1)).Nodup) (hs : Dict.Sorted s.keywords.extensions)
    (hgives : ∀ key ∈ knownKeywords, Gives d {} s (Dict.get? fields key) key)
    (hother : ∀ key, s.keywords.extension? key =
      if key ∈ knownKeywords then none else (Dict.get? fields key).map Json.sorted) :
    Takes d {} fields s where
  once := hnodup.filter _
  fresh _ _ := List.not_mem_nil
  keyword := hgives
  extensions := by
    refine ⟨[], rfl, hs.ext (Dict.sorted_ofList _) fun key => ?_⟩
    have hextension := hother key
    rw [List.nil_append, get?_ofList_otherFields, Dict.get?_ofList_of_nodup hnodup]
    exact hextension

theorem Takes.again (h : Takes d {} fields s)
    (hkept : ∀ key ∈ knownKeywords, KeptAt d fields s key) : Takes d {} s.fields s := by
  have hapart := h.extensionsApart
  refine takes_of_gives hapart.keys_nodup hapart.sorted (fun key hk => ?_) fun key => ?_
  · rw [hapart.get?_fields, if_pos hk]
    exact (hkept key hk).again
  · rw [hapart.get?_fields]
    split
    · next hk => rw [h.extension?_eq, if_pos hk]
    · exact (h.extension?_inOrder key).symm

theorem Takes.inOrder (h : Takes d {} fields s)
    (hkept : ∀ key ∈ knownKeywords, KeptAt d fields s key) :
    Takes d {} (Dict.mapValues Json.sorted (Dict.ofList s.fields)) s := by
  have hapart := h.extensionsApart
  have hsorted := (Dict.sorted_ofList s.fields).mapValues Json.sorted
  have hget : ∀ key, Dict.get? (Dict.mapValues Json.sorted (Dict.ofList s.fields)) key =
      (if key ∈ knownKeywords then s.written? key else s.keywords.extension? key).map
        Json.sorted := by
    intro key
    rw [Dict.get?_mapValues, Dict.get?_ofList_of_nodup hapart.keys_nodup, hapart.get?_fields]
  refine takes_of_gives hsorted.keys_nodup hapart.sorted (fun key hk => ?_) fun key => ?_
  · rw [hget, if_pos hk]
    exact (hkept key hk).inOrder
  · rw [hget]
    split
    · next hk => rw [h.extension?_eq, if_pos hk]
    · rw [h.extension?_inOrder, h.extension?_inOrder]

theorem exists_fields_of_ofValue {j : Json} (hd : d.nullIsEmpty = false)
    (h : ofValue d (.ofJson j) = .ok s) : ∃ fields, j = .obj fields ∧ Takes d {} fields s := by
  cases j with
  | obj fields => exact ⟨fields, rfl, ofPairs_eq_ok.mp h⟩
  | _ => simp [Value.ofJson, ofValue, hd, Decode.mismatch] at h

theorem survives_schema {d : Dialect} {j : Json} {s : Schema} (hd : d.nullIsEmpty = false)
    (h : ofValue d (.ofJson j) = .ok s) : Survives (ofValue d) tidy j s s.toJson := by
  obtain ⟨fields, rfl, htakes⟩ := exists_fields_of_ofValue hd h
  have hsmaller : Smaller fields := fun part hlt d s hd hs => survives_schema hd hs
  have hkept : ∀ key ∈ knownKeywords, KeptAt d fields s key :=
    fun key hk => htakes.keptAt hd hsmaller hk
  refine ⟨fun _ => Json.noConfusion, htakes.tidied hkept, ?_, ?_⟩
  · exact ofPairs_eq_ok.mpr (htakes.again hkept)
  · rw [toJson, Json.sorted_obj]
    exact ofPairs_eq_ok.mpr (htakes.inOrder hkept)
termination_by sizeOf j

theorem ofJson_roundTrip (j : Json) (s : Schema) (h : ofJson j = .ok s) :
    s.toJson.sorted = tidy j.sorted ∧ ofJson s.toJson = .ok s ∧
      ofJson s.toJson.sorted = .ok s := by
  obtain ⟨-, htidied, hagain, hinOrder⟩ := survives_schema (d := .json) rfl h
  exact ⟨htidied, hagain, hinOrder⟩

def labelsJson : Json := .obj [
  ("type", .str "object"),
  ("x-order", .null),
  ("required", .arr []),
  ("properties", .obj [
    ("size", .obj [("minimum", .int 1), ("default", .null), ("type", .str "integer")]),
    ("labels", .obj [("additionalProperties", .obj [("format", .null), ("type", .str "string")])])])]

def labelsTidy : Json := .obj [
  ("properties", .obj [
    ("labels", .obj [("additionalProperties", .obj [("type", .str "string")])]),
    ("size", .obj [("minimum", .int 1), ("type", .str "integer")])]),
  ("type", .str "object"),
  ("x-order", .null)]

def labelsSchema : Schema where
  keywords := { typeName := some "object", extensions := [("x-order", .null)] }
  properties := [
    ("labels", { additional := some (.schema (typed "string")) }),
    ("size", { keywords := { typeName := some "integer", extensions := [("minimum", .int 1)] } })]

theorem labelsJson_read : ofJson labelsJson = .ok labelsSchema := rfl

/-- Null and empty keywords are left out at each level, and a null extension stays. -/
theorem ofJson_roundTrip_labels : ofJson labelsJson = .ok labelsSchema ∧
    tidy labelsJson.sorted = labelsTidy ∧ labelsSchema.toJson.sorted = labelsTidy ∧
      ofJson labelsTidy = .ok labelsSchema := by
  obtain ⟨htidied, -, hinOrder⟩ := ofJson_roundTrip labelsJson labelsSchema labelsJson_read
  have htidy : tidy labelsJson.sorted = labelsTidy := rfl
  rw [htidied, htidy] at hinOrder
  exact ⟨labelsJson_read, htidy, htidied.trans htidy, hinOrder⟩

end ResourceModels.Schema
