import ResourceModels.Proofs.Dict
import ResourceModels.Proofs.Json
import ResourceModels.Schema.Reading
import ResourceModels.Schema.Writing

/-!
# Keywords of a schema that is written

Each keyword with a meaning is written at most once, and the extensions stand after them. So what is
written under a keyword is read off the schema.
-/

namespace ResourceModels.Schema

variable {s : Schema} {key : String}

theorem namedJson_eq (properties : List (String × Schema)) :
    namedJson properties = Dict.mapValues toJson properties := by
  induction properties with
  | nil => rfl
  | cons property rest ih =>
    rw [namedJson, ih]
    rfl

theorem listJson_eq (members : List Schema) : listJson members = members.map toJson := by
  induction members with
  | nil => rfl
  | cons member rest ih =>
    rw [listJson, ih]
    rfl

/-- A list of values, unless it is empty. -/
def filled? (items : List Json) : Option Json := if items.isEmpty then none else some (.arr items)

/-- A map of values, unless it is empty. -/
def filledMap? (fields : List (String × Json)) : Option Json :=
  if fields.isEmpty then none else some (.obj fields)

/-- What is written under a keyword with a meaning. -/
def written? (s : Schema) : String → Option Json
  | "$ref" => s.keywords.reference.map .str
  | "type" => s.keywords.typeName.map .str
  | "format" => s.keywords.format.map .str
  | "description" => s.keywords.description.map .str
  | "properties" => filledMap? (Dict.mapValues toJson s.properties)
  | "items" => s.items.map toJson
  | "required" => filled? (s.keywords.required.map .str)
  | "allOf" => filled? (s.allOf.map toJson)
  | "anyOf" => filled? (s.anyOf.map toJson)
  | "oneOf" => filled? (s.oneOf.map toJson)
  | "not" => s.not.map toJson
  | "additionalProperties" => extraJson s.additional
  | "enum" => filled? s.keywords.values
  | "default" => s.keywords.default?
  | _ => none

theorem listField_eq (name : String) (items : List Json) :
    listField name items = fieldOf name (filled? items) := by
  unfold listField filled?
  split <;> rfl

theorem optionJson_eq (part : Option Schema) : optionJson part = part.map toJson := by
  cases part <;> rfl

theorem fields_eq (s : Schema) :
    s.fields = (knownKeywords.flatMap fun key => fieldOf key (s.written? key)) ++
      s.keywords.extensions := by
  obtain ⟨k, properties, items, additional, allOf, anyOf, oneOf, not⟩ := s
  have hproperties : (if properties.isEmpty then []
      else [("properties", Json.obj (Dict.mapValues toJson properties))]) =
        fieldOf "properties" (filledMap? (Dict.mapValues toJson properties)) := by
    cases properties <;> rfl
  simp only [fields, textField, listField_eq, optionJson_eq, namedJson_eq, listJson_eq, hproperties,
    knownKeywords, List.flatMap_cons, List.flatMap_nil, written?, List.append_assoc,
    List.append_nil]

theorem keys_fieldOf (name : String) (value : Option Json) :
    ((fieldOf name value).map (·.1)).Sublist [name] := by
  cases value with
  | none => exact List.nil_sublist _
  | some j => exact List.Sublist.refl _

theorem keys_keywordFields (keys : List String) (value : String → Option Json) :
    ((keys.flatMap fun key => fieldOf key (value key)).map (·.1)).Sublist keys := by
  induction keys with
  | nil => exact List.Sublist.refl _
  | cons key rest ih =>
    rw [List.flatMap_cons, List.map_append]
    exact (keys_fieldOf key (value key)).append ih

theorem get?_keywordFields {keys : List String} (h : keys.Nodup) (value : String → Option Json)
    (key : String) : Dict.get? (keys.flatMap fun key => fieldOf key (value key)) key =
      if key ∈ keys then value key else none := by
  induction keys with
  | nil => rfl
  | cons first rest ih =>
    obtain ⟨hfirst, hrest⟩ := List.nodup_cons.mp h
    rw [List.flatMap_cons, Dict.get?_append, ih hrest]
    by_cases hk : key = first
    · subst hk
      rw [if_neg hfirst, if_pos List.mem_cons_self, Option.or_none]
      cases value key with
      | none => rfl
      | some j => exact if_pos rfl
    · have hown : Dict.get? (fieldOf first (value first)) key = none := by
        rw [Dict.get?_eq_none_iff]
        intro hm
        exact hk (List.mem_singleton.mp ((keys_fieldOf first (value first)).subset hm))
      rw [hown, Option.none_or]
      simp only [List.mem_cons, hk, false_or]

/-- Extensions as they are read: in order, and without a keyword that has a meaning. -/
structure ExtensionsApart (s : Schema) : Prop where
  sorted : Dict.Sorted s.keywords.extensions
  apart : ∀ key ∈ Dict.keys s.keywords.extensions, key ∉ knownKeywords

theorem ExtensionsApart.keys_nodup (h : s.ExtensionsApart) : (s.fields.map (·.1)).Nodup := by
  rw [fields_eq, List.map_append]
  refine List.Nodup.append ?_ h.sorted.keys_nodup ?_
  · exact List.Nodup.sublist (keys_keywordFields knownKeywords s.written?) (by decide)
  · intro key hknown hextension
    exact h.apart key hextension ((keys_keywordFields knownKeywords s.written?).subset hknown)

theorem ExtensionsApart.get?_fields (h : s.ExtensionsApart) (key : String) :
    Dict.get? s.fields key =
      if key ∈ knownKeywords then s.written? key else s.keywords.extension? key := by
  rw [fields_eq, Dict.get?_append, get?_keywordFields (by decide)]
  split
  · next hk =>
    rw [Dict.get?_eq_none_iff.mpr fun hm => h.apart key hm hk, Option.or_none]
  · rw [Option.none_or]
    rfl

end ResourceModels.Schema

/-!
## Tidy schemas

A schema given as a JSON value is tidied by leaving out, in it and in every schema within it, the
optional keywords that are null and the keywords for lists and maps that are empty. All other
keywords stand as they are.
-/

namespace ResourceModels.Schema

def optionalKeywords : List String :=
  ["$ref", "type", "format", "description", "items", "not", "additionalProperties", "default"]

def containerKeywords : List String :=
  ["properties", "required", "allOf", "anyOf", "oneOf", "enum"]

/-- Whether a keyword says no more than if it were missing. -/
def saysNothing (key : String) : Json → Bool
  | .null => key ∈ optionalKeywords
  | .arr [] => key ∈ containerKeywords
  | .obj [] => key ∈ containerKeywords
  | _ => false

mutual

def tidy : Json → Json
  | .obj fields => .obj (tidyFields fields)
  | j => j

def tidyFields : List (String × Json) → List (String × Json)
  | [] => []
  | (key, j) :: rest =>
    if saysNothing key j then tidyFields rest else (key, tidyAt key j) :: tidyFields rest

/-- The value of a keyword, which may be a schema or hold schemas. -/
def tidyAt (key : String) : Json → Json
  | .obj fields =>
    if key = "properties" then .obj (tidyNamed fields)
    else if key ∈ ["items", "not", "additionalProperties"] then .obj (tidyFields fields)
    else .obj fields
  | .arr items => if key ∈ ["allOf", "anyOf", "oneOf"] then .arr (tidyItems items) else .arr items
  | j => j

def tidyNamed : List (String × Json) → List (String × Json)
  | [] => []
  | (name, j) :: rest => (name, tidy j) :: tidyNamed rest

def tidyItems : List Json → List Json
  | [] => []
  | j :: rest => tidy j :: tidyItems rest

end

/-- What is left of a keyword. -/
def tidied? (key : String) (j : Json) : Option Json :=
  if saysNothing key j then none else some (tidyAt key j)

theorem tidied?_of_unknown {key : String} (hk : key ∉ knownKeywords) (j : Json) :
    tidied? key j = some j := by
  simp only [knownKeywords, List.mem_cons, List.not_mem_nil, or_false, not_or] at hk
  rcases j with _ | _ | _ | _ | _ | (_ | _) | (_ | _) <;>
    simp [tidied?, saysNothing, tidyAt, optionalKeywords, containerKeywords, hk]

theorem tidyNamed_eq (fields : List (String × Json)) :
    tidyNamed fields = Dict.mapValues tidy fields := by
  induction fields with
  | nil => rfl
  | cons field rest ih =>
    rw [tidyNamed, ih]
    rfl

theorem tidyItems_eq (items : List Json) : tidyItems items = items.map tidy := by
  induction items with
  | nil => rfl
  | cons j rest ih => rw [tidyItems, ih, List.map_cons]

theorem mem_tidyFields {fields : List (String × Json)} {field : String × Json}
    (h : field ∈ tidyFields fields) : ∃ j, (field.1, j) ∈ fields := by
  induction fields with
  | nil => cases h
  | cons first rest ih =>
    rw [tidyFields] at h
    split at h
    · obtain ⟨j, hj⟩ := ih h
      exact ⟨j, List.mem_cons_of_mem _ hj⟩
    · rcases List.mem_cons.mp h with rfl | h
      · exact ⟨first.2, List.mem_cons_self⟩
      · obtain ⟨j, hj⟩ := ih h
        exact ⟨j, List.mem_cons_of_mem _ hj⟩

theorem sorted_tidyFields {fields : Dict Json} (h : Dict.Sorted fields) :
    Dict.Sorted (tidyFields fields) := by
  induction fields with
  | nil => exact .nil
  | cons first rest ih =>
    have hfirst := List.pairwise_cons.mp h
    rw [tidyFields]
    split
    · exact ih hfirst.2
    · refine List.pairwise_cons.mpr ⟨fun field hm => ?_, ih hfirst.2⟩
      obtain ⟨j, hj⟩ := mem_tidyFields hm
      exact hfirst.1 (field.1, j) hj

theorem get?_tidyFields {fields : Dict Json} (h : Dict.Sorted fields) (key : String) :
    Dict.get? (tidyFields fields) key = (Dict.get? fields key).bind (tidied? key) := by
  induction fields with
  | nil => rfl
  | cons first rest ih =>
    obtain ⟨k, j⟩ := first
    have hfirst := List.pairwise_cons.mp h
    rw [tidyFields, Dict.get?]
    split
    · next hdropped =>
      rw [ih hfirst.2]
      split
      · next hkey =>
        -- The keyword is left out, and stands nowhere else.
        subst hkey
        have hrest : Dict.get? rest k = none := by
          rw [Dict.get?_eq_none_iff]
          intro hm
          obtain ⟨field, hfield, rfl⟩ := List.mem_map.mp hm
          exact absurd (hfirst.1 field hfield) (lt_irrefl _)
        rw [hrest, Option.bind_some, tidied?, if_pos hdropped]
        rfl
      · rfl
    · next hkept =>
      rw [Dict.get?]
      split
      · next hkey =>
        subst hkey
        rw [Option.bind_some, tidied?, if_neg hkept]
      · exact ih hfirst.2

end ResourceModels.Schema
