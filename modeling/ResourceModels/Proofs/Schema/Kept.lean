import ResourceModels.Proofs.Schema.Reading
import ResourceModels.Proofs.Schema.Writing

/-!
# Keywords that are written as they were read

What is written under a keyword is its value as it was read, tidied and in order, and it is read as
the same part of the schema again. A keyword may hold one value, a list, a map or a flag; of schemas
among these it is assumed.
-/

namespace ResourceModels.Schema

open Yaml (Value)

/-- A value that is read, and what is written of it. -/
structure Survives {α : Type} (read : Value → Except Mismatch α) (tidying : Json → Json) (j : Json)
    (a : α) (written : Json) : Prop where
  given : j ≠ .null → written ≠ .null
  tidied : written.sorted = tidying j.sorted
  again : read (.ofJson written) = .ok a
  inOrder : read (.ofJson written.sorted) = .ok a

/-- What a keyword says, and what is written under it. -/
structure Kept {α : Type} (read : Value → Except Mismatch α) (blank : α) (key : String)
    (given : Option Json) (x : α) (written : Option Json) : Prop where
  tidied : written.map Json.sorted = (given.map Json.sorted).bind (tidied? key)
  again : slot read blank written = .ok x
  inOrder : slot read blank (written.map Json.sorted) = .ok x

theorem sorted_ne_null {j : Json} (h : j ≠ .null) : j.sorted ≠ .null := by
  cases j with
  | null => exact absurd rfl h
  | _ => exact Json.noConfusion

section

variable {α : Type} {d : Dialect} {key : String} {given : Option Json}

theorem survives_text {j : Json} {t : String} (h : Decode.text d (.ofJson j) = .ok t) :
    Survives (Decode.text d) id j t (.str t) := by
  cases j with
  | str t =>
    cases h
    exact ⟨fun h => h, rfl, rfl, rfl⟩
  | _ => cases h

theorem survives_json {j x : Json} (h : Decode.json d (.ofJson j) = .ok x) :
    Survives (Decode.json d) id j x x := by
  rw [Decode.json_ofJson] at h
  cases h
  refine ⟨sorted_ne_null, Json.sorted_sorted j, ?_, ?_⟩
  · rw [Decode.json_ofJson, Json.sorted_sorted]
  · rw [Decode.json_ofJson, Json.sorted_sorted, Json.sorted_sorted]

theorem kept_blank (read : Value → Except Mismatch α) (blank : α) (key : String) :
    Kept read blank key none blank none := ⟨rfl, rfl, rfl⟩

theorem optional_of_ne_null (read : Value → Except Mismatch α) {j : Json} (h : j ≠ .null) :
    Decode.optional read (.ofJson j) = (read (.ofJson j)).map some := by
  cases j with
  | null => exact absurd rfl h
  | _ => rfl

/-- Whether a keyword is optional, and how its value is tidied. -/
structure IsOptional (key : String) (tidying : Json → Json) : Prop where
  null : tidied? key .null = none
  value : ∀ j, j ≠ .null → tidied? key j = some (tidying j)

theorem isOptional_value (hk : key ∈ ["$ref", "type", "format", "description", "default"]) :
    IsOptional key id := by
  simp only [List.mem_cons, List.not_mem_nil, or_false] at hk
  constructor
  · rcases hk with rfl | rfl | rfl | rfl | rfl <;> rfl
  · intro j hj
    rcases hk with rfl | rfl | rfl | rfl | rfl
    all_goals
      rcases j with _ | _ | _ | _ | _ | (_ | _) | (_ | _) <;> first | rfl | exact absurd rfl hj

theorem isOptional_schema (hk : key ∈ ["items", "not", "additionalProperties"]) :
    IsOptional key tidy := by
  simp only [List.mem_cons, List.not_mem_nil, or_false] at hk
  constructor
  · rcases hk with rfl | rfl | rfl <;> rfl
  · intro j hj
    rcases hk with rfl | rfl | rfl
    all_goals
      rcases j with _ | _ | _ | _ | _ | (_ | _) | (_ | _) <;> first | rfl | exact absurd rfl hj

theorem kept_optional (key : String) {read : Value → Except Mismatch α} {tidying : Json → Json}
    {write : α → Json} {x : Option α} (hkey : IsOptional key tidying)
    (hread : ∀ j a, given = some j → read (.ofJson j) = .ok a → Survives read tidying j a (write a))
    (h : slot (Decode.optional read) none given = .ok x) :
    Kept (Decode.optional read) none key given x (x.map write) := by
  cases given with
  | none =>
    cases h
    exact kept_blank _ _ _
  | some j =>
    by_cases hj : j = .null
    · subst hj
      cases h
      exact ⟨hkey.null.symm, rfl, rfl⟩
    · rw [slot, Option.elim, optional_of_ne_null read hj, Outcome.map_eq_ok] at h
      obtain ⟨a, ha, rfl⟩ := h
      have hown := hread j a rfl ha
      have hwritten := hown.given hj
      refine ⟨?_, ?_, ?_⟩
      · have htidied := hkey.value j.sorted (sorted_ne_null hj)
        rw [← hown.tidied] at htidied
        exact htidied.symm
      · rw [Option.map_some, slot, Option.elim, optional_of_ne_null read hwritten, hown.again]
        rfl
      · rw [Option.map_some, Option.map_some, slot, Option.elim,
          optional_of_ne_null read (sorted_ne_null hwritten), hown.inOrder]
        rfl

theorem list_eq_ok (hd : d.nullIsEmpty = false) {read : Value → Except Mismatch α} {j : Json}
    {x : List α} : Decode.list d read (.ofJson j) = .ok x ↔
      ∃ items, j = .arr items ∧ List.Forall₂ (fun j a => read (.ofJson j) = .ok a) items x := by
  rw [Decode.list, Value.untag_ofJson]
  cases j with
  | arr items =>
    simp only [Value.ofJson, Value.ofJsonItems_eq, Outcome.mapM_eq_ok, List.forall₂_map_left_iff]
    constructor
    · exact fun h => ⟨items, rfl, h⟩
    · rintro ⟨_, hitems, h⟩
      cases hitems
      exact h
  | null => simp [Value.ofJson, hd, Decode.mismatch]
  | _ => simp [Value.ofJson, Decode.mismatch]

theorem slot_filled (hd : d.nullIsEmpty = false) {read : Value → Except Mismatch α}
    {items : List Json} {x : List α} : slot (Decode.list d read) [] (filled? items) = .ok x ↔
      List.Forall₂ (fun j a => read (.ofJson j) = .ok a) items x := by
  cases items with
  | nil =>
    have hblank : slot (Decode.list d read) [] (filled? []) = .ok [] := rfl
    rw [hblank, List.forall₂_nil_left_iff, Except.ok.injEq, eq_comm]
  | cons j rest =>
    refine (list_eq_ok hd).trans ⟨?_, fun h => ⟨j :: rest, rfl, h⟩⟩
    rintro ⟨_, hitems, h⟩
    cases hitems
    exact h

theorem map_sorted_filled? (items : List Json) :
    (filled? items).map Json.sorted = filled? (items.map Json.sorted) := by
  cases items with
  | nil => rfl
  | cons j rest => exact congrArg some (Json.sorted_arr (j :: rest))

/-- Whether a keyword holds a list, and how the items are tidied. -/
def IsList (key : String) (tidying : Json → Json) : Prop :=
  ∀ items, tidied? key (.arr items) = filled? (items.map tidying)

theorem isList_value (hk : key ∈ ["required", "enum"]) : IsList key id := by
  simp only [List.mem_cons, List.not_mem_nil, or_false] at hk
  intro items
  rw [List.map_id]
  rcases hk with rfl | rfl <;> cases items <;> rfl

theorem isList_schema (hk : key ∈ ["allOf", "anyOf", "oneOf"]) : IsList key tidy := by
  simp only [List.mem_cons, List.not_mem_nil, or_false] at hk
  intro items
  rw [← tidyItems_eq]
  rcases hk with rfl | rfl | rfl <;> cases items <;> rfl

theorem kept_list (key : String) (hd : d.nullIsEmpty = false) {read : Value → Except Mismatch α}
    {tidying : Json → Json} {write : α → Json} {x : List α} (hkey : IsList key tidying)
    (hread : ∀ j a, (∃ items, given = some (.arr items) ∧ j ∈ items) → read (.ofJson j) = .ok a →
      Survives read tidying j a (write a))
    (h : slot (Decode.list d read) [] given = .ok x) :
    Kept (Decode.list d read) [] key given x (filled? (x.map write)) := by
  cases given with
  | none =>
    cases h
    exact kept_blank _ _ _
  | some j =>
    obtain ⟨items, rfl, hitems⟩ := (list_eq_ok hd).mp h
    have hall : List.Forall₂ (fun j a => Survives read tidying j a (write a)) items x := by
      have hboth := (List.forall₂_and_left (p := (· ∈ items)) items x).mpr ⟨fun _ h => h, hitems⟩
      exact hboth.imp fun j a ⟨hj, ha⟩ => hread j a ⟨items, rfl, hj⟩ ha
    have heach : ∀ a ∈ x, ∃ j ∈ items, Survives read tidying j a (write a) :=
      fun a ha => Outcome.exists_of_mem_forall₂ hall ha
    refine ⟨?_, ?_, ?_⟩
    · have hwritten := Outcome.map_eq_of_forall₂ (f := fun j => tidying j.sorted)
        (g := fun a => (write a).sorted) hall fun j a ha => ha.tidied.symm
      have htidied := hkey (items.map Json.sorted)
      rw [List.map_map] at htidied
      rw [map_sorted_filled?, List.map_map, Option.map_some, Json.sorted_arr]
      exact (htidied.trans (congrArg filled? hwritten)).symm
    · rw [slot_filled hd, List.forall₂_map_left_iff, List.forall₂_same]
      intro a ha
      obtain ⟨j, -, hsurvives⟩ := heach a ha
      exact hsurvives.again
    · rw [map_sorted_filled?, slot_filled hd, List.map_map, List.forall₂_map_left_iff,
        List.forall₂_same]
      intro a ha
      obtain ⟨j, -, hsurvives⟩ := heach a ha
      exact hsurvives.inOrder

theorem ofOptional_ofJson (d : Dialect) (j : Json) :
    ofOptional d (.ofJson j) = Decode.optional (ofValue d) (.ofJson j) := by
  cases j <;> rfl

theorem kept_schema (key : String) {x : Option Schema} (hkey : IsOptional key tidy)
    (hread : ∀ j s, given = some j → ofValue d (.ofJson j) = .ok s →
      Survives (ofValue d) tidy j s s.toJson)
    (h : slot (ofOptional d) none given = .ok x) :
    Kept (ofOptional d) none key given x (x.map toJson) := by
  have hslot : ∀ given, slot (ofOptional d) none given =
      slot (Decode.optional (ofValue d)) none given := by
    intro given
    cases given with
    | none => rfl
    | some j => exact ofOptional_ofJson d j
  rw [hslot] at h
  obtain ⟨htidied, hagain, hinOrder⟩ := kept_optional key hkey hread h
  exact ⟨htidied, (hslot _).trans hagain, (hslot _).trans hinOrder⟩

theorem ofItems_eq (d : Dialect) (items : List Value) :
    ofItems d items = items.mapM (ofValue d) := by
  induction items with
  | nil => rfl
  | cons v rest ih => rw [ofItems, ih, List.mapM_cons]

theorem ofList_ofJson (hd : d.nullIsEmpty = false) (j : Json) :
    ofList d (.ofJson j) = Decode.list d (ofValue d) (.ofJson j) := by
  cases j with
  | arr items => exact ofItems_eq d _
  | _ => simp [Value.ofJson, ofList, Decode.list, Value.untag, hd]

theorem kept_schemas (key : String) (hd : d.nullIsEmpty = false) {x : List Schema}
    (hkey : IsList key tidy)
    (hread : ∀ j s, (∃ items, given = some (.arr items) ∧ j ∈ items) →
      ofValue d (.ofJson j) = .ok s → Survives (ofValue d) tidy j s s.toJson)
    (h : slot (ofList d) [] given = .ok x) :
    Kept (ofList d) [] key given x (filled? (x.map toJson)) := by
  have hslot : ∀ given, slot (ofList d) [] given = slot (Decode.list d (ofValue d)) [] given := by
    intro given
    cases given with
    | none => rfl
    | some j => exact ofList_ofJson hd j
  rw [hslot] at h
  obtain ⟨htidied, hagain, hinOrder⟩ := kept_list key hd hkey hread h
  exact ⟨htidied, (hslot _).trans hagain, (hslot _).trans hinOrder⟩

/-- Properties that are read from fields one by one. -/
abbrev ReadEach (d : Dialect) (fields : List (String × Json)) (pairs : List (String × Schema)) :
    Prop :=
  List.Forall₂ (fun field pair => field.1 = pair.1 ∧ ofValue d (.ofJson field.2) = .ok pair.2)
    fields pairs

theorem ofNamed_eq_ok {fields : List (String × Json)} {pairs : List (String × Schema)} :
    ofNamed d (Value.ofJsonFields fields) = .ok pairs ↔ ReadEach d fields pairs := by
  induction fields generalizing pairs with
  | nil => rw [Value.ofJsonFields, ofNamed, ReadEach, List.forall₂_nil_left_iff, Except.ok.injEq,
      eq_comm]
  | cons field rest ih =>
    obtain ⟨name, j⟩ := field
    have hname : Decode.text d (.str name) = .ok name := rfl
    simp only [Value.ofJsonFields, ofNamed, hname, ReadEach, List.forall₂_cons_left_iff,
      Outcome.bind_eq_ok, Outcome.pure_eq_ok, ih]
    constructor
    · rintro ⟨_, hown, s, hs, more, hmore, rfl⟩
      cases hown
      exact ⟨(name, s), more, ⟨rfl, hs⟩, hmore, rfl⟩
    · rintro ⟨⟨_, s⟩, more, ⟨rfl, hs⟩, hmore, rfl⟩
      exact ⟨name, rfl, s, hs, more, hmore, rfl⟩

theorem ofProperties_eq_ok (hd : d.nullIsEmpty = false) {j : Json}
    {properties : List (String × Schema)} : ofProperties d (.ofJson j) = .ok properties ↔
      ∃ fields, j = .obj fields ∧ ∃ pairs, ReadEach d fields pairs ∧
        properties = Dict.ofList pairs := by
  cases j with
  | obj fields =>
    simp only [Value.ofJson, ofProperties, Outcome.bind_eq_ok, Outcome.pure_eq_ok, ofNamed_eq_ok,
      Json.obj.injEq, exists_eq_left']
    exact exists_congr fun pairs => and_congr_right fun _ => eq_comm
  | _ => simp [Value.ofJson, ofProperties, hd, Decode.mismatch]

theorem slot_filledMap (hd : d.nullIsEmpty = false) {fields : List (String × Json)}
    {properties : List (String × Schema)} :
    slot (ofProperties d) [] (filledMap? fields) = .ok properties ↔
      ∃ pairs, ReadEach d fields pairs ∧ properties = Dict.ofList pairs := by
  cases fields with
  | nil =>
    have hblank : slot (ofProperties d) [] (filledMap? []) = .ok [] := rfl
    simp only [hblank, ReadEach, List.forall₂_nil_left_iff, exists_eq_left, Except.ok.injEq]
    exact eq_comm
  | cons field rest =>
    refine (ofProperties_eq_ok hd).trans ⟨?_, fun h => ⟨field :: rest, rfl, h⟩⟩
    rintro ⟨_, hfields, h⟩
    cases hfields
    exact h

theorem map_sorted_filledMap? {fields : Dict Json} (h : Dict.Sorted fields) :
    (filledMap? fields).map Json.sorted = filledMap? (Dict.mapValues Json.sorted fields) := by
  cases fields with
  | nil => rfl
  | cons field rest =>
    have hsorted := Json.sorted_obj (field :: rest)
    rw [h.ofList_eq] at hsorted
    exact congrArg some hsorted

theorem tidied_properties (fields : List (String × Json)) :
    tidied? "properties" (.obj fields) = filledMap? (Dict.mapValues tidy fields) := by
  cases fields with
  | nil => rfl
  | cons field rest =>
    rw [← tidyNamed_eq]
    rfl

theorem kept_properties (hd : d.nullIsEmpty = false) {properties : List (String × Schema)}
    (hread : ∀ fields, given = some (.obj fields) → ∀ field ∈ fields, ∀ s,
      ofValue d (.ofJson field.2) = .ok s → Survives (ofValue d) tidy field.2 s s.toJson)
    (h : slot (ofProperties d) [] given = .ok properties) :
    Kept (ofProperties d) [] "properties" given properties
      (filledMap? (Dict.mapValues toJson properties)) := by
  cases given with
  | none =>
    cases h
    exact kept_blank _ _ _
  | some j =>
    obtain ⟨fields, rfl, pairs, hpairs, rfl⟩ := (ofProperties_eq_ok hd).mp h
    have hall : List.Forall₂ (fun field pair => field.1 = pair.1 ∧
        Survives (ofValue d) tidy field.2 pair.2 pair.2.toJson) fields pairs := by
      have hboth := (List.forall₂_and_left (p := (· ∈ fields)) fields pairs).mpr
        ⟨fun _ h => h, hpairs⟩
      exact hboth.imp fun field pair ⟨hm, hname, hs⟩ => ⟨hname, hread fields rfl field hm _ hs⟩
    have heach : ∀ pair ∈ Dict.ofList pairs,
        ∃ j, Survives (ofValue d) tidy j pair.2 pair.2.toJson := by
      intro pair hm
      obtain ⟨field, -, -, hs⟩ :=
        Outcome.exists_of_mem_forall₂ hall (Dict.mem_of_mem_ofList hm)
      exact ⟨field.2, hs⟩
    have hsorted := (Dict.sorted_ofList pairs).mapValues toJson
    refine ⟨?_, ?_, ?_⟩
    · have hwritten : Dict.mapValues (fun s => s.toJson.sorted) pairs =
          Dict.mapValues (fun j => tidy j.sorted) fields := by
        refine (Outcome.map_eq_of_forall₂ hall fun field pair ⟨hname, hs⟩ => ?_).symm
        simp only [hname, hs.tidied]
      have hofList := congrArg Dict.ofList hwritten
      rw [Dict.ofList_mapValues, Dict.ofList_mapValues] at hofList
      rw [map_sorted_filledMap? hsorted, Option.map_some, Json.sorted_obj, Option.bind_some,
        tidied_properties]
      simp only [Dict.mapValues, List.map_map] at hofList ⊢
      exact congrArg filledMap? hofList
    · rw [slot_filledMap hd]
      refine ⟨Dict.ofList pairs, ?_, (Dict.sorted_ofList pairs).ofList_eq.symm⟩
      rw [ReadEach, Dict.mapValues, List.forall₂_map_left_iff, List.forall₂_same]
      intro pair hm
      obtain ⟨j, hs⟩ := heach pair hm
      exact ⟨rfl, hs.again⟩
    · rw [map_sorted_filledMap? hsorted, slot_filledMap hd]
      refine ⟨Dict.ofList pairs, ?_, (Dict.sorted_ofList pairs).ofList_eq.symm⟩
      rw [ReadEach, Dict.mapValues, Dict.mapValues, List.map_map, List.forall₂_map_left_iff,
        List.forall₂_same]
      intro pair hm
      obtain ⟨j, hs⟩ := heach pair hm
      exact ⟨rfl, hs.inOrder⟩

theorem hasTagPairs_ofJsonFields (fields : List (String × Json)) :
    Decode.hasTagPairs (Value.ofJsonFields fields) = false :=
  Decode.hasTagPairs_ofJson fun field _ => Decode.hasTag_ofJson field.2

/-- A flag is read as a flag, and an object as a schema if it is one. -/
theorem ofExtra_eq_ok {j : Json} {x : Option (Extra Schema)} :
    ofExtra d (.ofJson j) = .ok x ↔
      (j = .null ∧ x = none) ∨ (∃ b, j = .bool b ∧ x = some (.flag b)) ∨
      ∃ fields s, j = .obj fields ∧ x = some (.schema s) ∧
        ofValue .buffered (.ofJson (.obj fields)) = .ok s := by
  cases j with
  | null => simp [Value.ofJson, ofExtra, eq_comm]
  | bool b => simp [Value.ofJson, ofExtra, eq_comm]
  | obj fields =>
    simp only [Value.ofJson, ofExtra, hasTagPairs_ofJsonFields, ofValue]
    cases hread : ofPairs .buffered {} (Value.ofJsonFields fields) <;> simp [hread, eq_comm]
  | _ => simp [Value.ofJson, ofExtra]

theorem kept_additional {x : Option (Extra Schema)}
    (hread : ∀ j s, given = some j → ofValue .buffered (.ofJson j) = .ok s →
      Survives (ofValue .buffered) tidy j s s.toJson)
    (h : slot (ofExtra d) none given = .ok x) :
    Kept (ofExtra d) none "additionalProperties" given x (extraJson x) := by
  cases given with
  | none =>
    cases h
    exact kept_blank _ _ _
  | some j =>
    rcases ofExtra_eq_ok.mp h with ⟨rfl, rfl⟩ | ⟨b, rfl, rfl⟩ | ⟨fields, s, rfl, rfl, hs⟩
    · exact ⟨rfl, rfl, rfl⟩
    · exact ⟨rfl, rfl, rfl⟩
    · have hown := hread _ s rfl hs
      have hagain := hown.again
      have hinOrder := hown.inOrder
      have hwritten : extraJson (some (.schema s)) = some s.toJson := rfl
      rw [hwritten]
      refine ⟨?_, ?_, ?_⟩
      · have hoptional : IsOptional "additionalProperties" tidy := isOptional_schema (by decide)
        have htidied := hoptional.value (Json.obj fields).sorted Json.noConfusion
        rw [← hown.tidied] at htidied
        exact htidied.symm
      · exact ofExtra_eq_ok.mpr (.inr (.inr ⟨s.fields, s, rfl, rfl, hagain⟩))
      · rw [toJson, Json.sorted_obj] at hinOrder
        refine ofExtra_eq_ok.mpr (.inr (.inr ⟨_, s, ?_, rfl, hinOrder⟩))
        rw [toJson, Json.sorted_obj]

end

end ResourceModels.Schema
