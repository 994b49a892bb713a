import ResourceModels.Decode
import ResourceModels.Proofs.Dict
import ResourceModels.Proofs.Outcome

/-!
# Values in order

A value put in order stays as it is when it is put in order again, and any value that a JSON value
stands for is read as that value in order. Whatever else is read as a JSON value is in order too.
-/

namespace ResourceModels

namespace Json

/-- The values directly within a value. -/
def parts : Json → List Json
  | .arr items => items
  | .obj fields => fields.map (·.2)
  | _ => []

theorem sizeOf_lt_of_mem_parts {j part : Json} (h : part ∈ j.parts) : sizeOf part < sizeOf j := by
  cases j with
  | arr items =>
    have hlt := List.sizeOf_lt_of_mem (show part ∈ items from h)
    simp only [arr.sizeOf_spec]
    omega
  | obj fields =>
    obtain ⟨⟨key, value⟩, hm, rfl⟩ := List.mem_map.mp h
    have hlt := List.sizeOf_lt_of_mem hm
    simp only [obj.sizeOf_spec, Prod.mk.sizeOf_spec] at hlt ⊢
    omega
  | _ => cases h

theorem parts_induction {P : Json → Prop} (step : ∀ j, (∀ part ∈ j.parts, P part) → P j)
    (j : Json) : P j :=
  step j fun part _ => parts_induction step part
termination_by sizeOf j
decreasing_by exact sizeOf_lt_of_mem_parts ‹_›

theorem sortedItems_eq (items : List Json) : sortedItems items = items.map sorted := by
  induction items with
  | nil => rfl
  | cons j rest ih => rw [sortedItems, ih, List.map_cons]

theorem sortedFields_eq (fields : List (String × Json)) :
    sortedFields fields = Dict.mapValues sorted fields := by
  induction fields with
  | nil => rfl
  | cons field rest ih =>
    rw [sortedFields, ih]
    rfl

theorem sorted_arr (items : List Json) : (arr items).sorted = arr (items.map sorted) := by
  rw [sorted, sortedItems_eq]

theorem sorted_obj (fields : List (String × Json)) :
    (obj fields).sorted = obj (Dict.mapValues sorted (Dict.ofList fields)) := by
  rw [sorted, sortedFields_eq, Dict.ofList_mapValues]

theorem sorted_sorted (j : Json) : j.sorted.sorted = j.sorted := by
  induction j using parts_induction with
  | step j ih =>
    cases j with
    | arr items =>
      simp only [sorted_arr, List.map_map, arr.injEq]
      exact List.map_congr_left ih
    | obj fields =>
      have hsorted := (Dict.sorted_ofList fields).mapValues sorted
      rw [sorted_obj, sorted_obj, hsorted.ofList_eq]
      simp only [Dict.mapValues, List.map_map, obj.injEq]
      apply List.map_congr_left
      intro field hm
      have hpart := List.mem_map_of_mem (f := (·.2)) (Dict.mem_of_mem_ofList hm)
      simp only [Function.comp_apply, ih field.2 hpart]
    | _ => rfl

theorem sorted_comp_sorted : sorted ∘ sorted = sorted := funext sorted_sorted

/-- The fields of every object stand in order of key. -/
def InOrder (j : Json) : Prop := j.sorted = j

theorem inOrder_obj_ofList {fields : List (String × Json)}
    (h : ∀ field ∈ fields, field.2.InOrder) : (obj (Dict.ofList fields)).InOrder := by
  have hsorted := Dict.sorted_ofList fields
  rw [InOrder, sorted_obj, hsorted.ofList_eq, obj.injEq]
  have hmap : ∀ field ∈ Dict.ofList fields, (field.1, field.2.sorted) = field := by
    intro field hm
    rw [h field (Dict.mem_of_mem_ofList hm)]
  exact (List.map_congr_left hmap).trans (List.map_id _)

theorem inOrder_arr {values : List Json} (h : ∀ j ∈ values, j.InOrder) : (arr values).InOrder := by
  rw [InOrder, sorted_arr, arr.injEq]
  exact (List.map_congr_left h).trans (List.map_id _)

theorem inOrder_obj_iff {fields : List (String × Json)} :
    (obj fields).InOrder ↔ Dict.Sorted fields ∧ ∀ field ∈ fields, field.2.InOrder := by
  rw [InOrder, sorted_obj, obj.injEq]
  constructor
  · intro h
    have hsorted : Dict.Sorted fields := h ▸ (Dict.sorted_ofList fields).mapValues sorted
    rw [hsorted.ofList_eq] at h
    refine ⟨hsorted, fun field hm => ?_⟩
    have hfield := List.map_inj_left.mp (h.trans (List.map_id _).symm) field hm
    exact congrArg (·.2) hfield
  · rintro ⟨hsorted, hparts⟩
    rw [hsorted.ofList_eq]
    refine (List.map_congr_left fun field hm => ?_).trans (List.map_id _)
    rw [hparts field hm]
    rfl

theorem inOrder_obj_insert {fields : Dict Json} {j : Json} (h : (obj fields).InOrder)
    (hj : j.InOrder) (key : String) : (obj (Dict.insert fields key j)).InOrder := by
  obtain ⟨hsorted, hparts⟩ := inOrder_obj_iff.mp h
  refine inOrder_obj_iff.mpr ⟨hsorted.insert key j, fun field hm => ?_⟩
  rcases Dict.mem_insert hm with rfl | hm
  · exact hj
  · exact hparts field hm

end Json

namespace Yaml.Value

theorem ofJsonItems_eq (items : List Json) : ofJsonItems items = items.map ofJson := by
  induction items with
  | nil => rfl
  | cons j rest ih => rw [ofJsonItems, ih, List.map_cons]

theorem untag_ofJson (j : Json) : (ofJson j).untag = ofJson j := by
  cases j <;> rfl

mutual

/-- Whether a value is that of a JSON value. -/
def isOf : Json → Value → Bool
  | .null, .null => true
  | .bool b, .bool c => b = c
  | .int n, .int m => n = m
  | .float x, .float (.finite y) => x = y
  | .str s, .str t => s = t
  | .arr items, .seq others => areOf items others
  | .obj fields, .map pairs => pairsAreOf fields pairs
  | _, _ => false

def areOf : List Json → List Value → Bool
  | [], [] => true
  | j :: rest, v :: others => isOf j v && areOf rest others
  | _, _ => false

def pairsAreOf : List (String × Json) → List (Value × Value) → Bool
  | [], [] => true
  | (key, j) :: rest, (.str name, v) :: others => key = name && isOf j v && pairsAreOf rest others
  | _, _ => false

end

mutual

theorem isOf_iff : ∀ {j : Json} {v : Value}, isOf j v = true ↔ v = .ofJson j
  | .null, v => by cases v <;> simp [isOf, ofJson]
  | .bool b, v => by cases v <;> simp [isOf, ofJson, eq_comm]
  | .int n, v => by cases v <;> simp [isOf, ofJson, eq_comm]
  | .float x, v => by
    rcases v with _ | _ | _ | (_ | _ | _) | _ | _ | _ | _ <;> simp [isOf, ofJson, eq_comm]
  | .str s, v => by cases v <;> simp [isOf, ofJson, eq_comm]
  | .arr items, v => by
    cases v with
    | seq others => rw [isOf, areOf_iff, ofJson, seq.injEq]
    | _ => simp [isOf, ofJson]
  | .obj fields, v => by
    cases v with
    | map pairs => rw [isOf, pairsAreOf_iff, ofJson, map.injEq]
    | _ => simp [isOf, ofJson]

theorem areOf_iff : ∀ {items : List Json} {others : List Value},
    areOf items others = true ↔ others = ofJsonItems items
  | [], others => by cases others <;> simp [areOf, ofJsonItems]
  | j :: rest, others => by
    cases others with
    | nil => simp [areOf, ofJsonItems]
    | cons v others =>
      rw [areOf, Bool.and_eq_true, isOf_iff, areOf_iff, ofJsonItems, List.cons.injEq]

theorem pairsAreOf_iff : ∀ {fields : List (String × Json)} {pairs : List (Value × Value)},
    pairsAreOf fields pairs = true ↔ pairs = ofJsonFields fields
  | [], pairs => by cases pairs <;> simp [pairsAreOf, ofJsonFields]
  | (key, j) :: rest, pairs => by
    cases pairs with
    | nil => simp [pairsAreOf, ofJsonFields]
    | cons pair others =>
      obtain ⟨k, v⟩ := pair
      cases k with
      | str name =>
        simp only [pairsAreOf, Bool.and_eq_true, decide_eq_true_eq, isOf_iff, pairsAreOf_iff,
          ofJsonFields, List.cons.injEq, Prod.mk.injEq, str.injEq, eq_comm (a := key)]
      | _ => simp [pairsAreOf, ofJsonFields]

end

end Yaml.Value

namespace Decode

open Yaml (Value)

theorem hasTagItems_ofJson {items : List Json}
    (h : ∀ j ∈ items, hasTag (.ofJson j) = false) :
    hasTagItems (Value.ofJsonItems items) = false := by
  induction items with
  | nil => rfl
  | cons j rest ih =>
    obtain ⟨hj, hrest⟩ := List.forall_mem_cons.mp h
    rw [Value.ofJsonItems, hasTagItems, hj, ih hrest, Bool.or_self]

theorem hasTagPairs_ofJson {fields : List (String × Json)}
    (h : ∀ field ∈ fields, hasTag (.ofJson field.2) = false) :
    hasTagPairs (Value.ofJsonFields fields) = false := by
  induction fields with
  | nil => rfl
  | cons field rest ih =>
    obtain ⟨hfield, hrest⟩ := List.forall_mem_cons.mp h
    rw [Value.ofJsonFields, hasTagPairs, hfield, ih hrest]
    rfl

theorem hasTag_ofJson (j : Json) : hasTag (.ofJson j) = false := by
  induction j using Json.parts_induction with
  | step j ih =>
    cases j with
    | arr items =>
      rw [Value.ofJson, hasTag]
      exact hasTagItems_ofJson ih
    | obj fields =>
      rw [Value.ofJson, hasTag]
      exact hasTagPairs_ofJson fun field hm => ih field.2 (List.mem_map_of_mem hm)
    | _ => rfl

variable {d : Dialect}

theorem jsonItems_ofJson {items : List Json}
    (h : ∀ j ∈ items, json d (.ofJson j) = .ok j.sorted) :
    jsonItems d (Value.ofJsonItems items) = .ok (Json.sortedItems items) := by
  induction items with
  | nil => rfl
  | cons j rest ih =>
    obtain ⟨hj, hrest⟩ := List.forall_mem_cons.mp h
    rw [Value.ofJsonItems, jsonItems, hj, ih hrest]
    rfl

theorem jsonPairs_ofJson {fields : List (String × Json)}
    (h : ∀ field ∈ fields, json d (.ofJson field.2) = .ok field.2.sorted) (expected : String) :
    jsonPairs d expected (Value.ofJsonFields fields) = .ok (Json.sortedFields fields) := by
  induction fields generalizing expected with
  | nil => rfl
  | cons field rest ih =>
    obtain ⟨hfield, hrest⟩ := List.forall_mem_cons.mp h
    rw [Value.ofJsonFields, jsonPairs, hfield, ih hrest]
    rfl

theorem json_ofJson (d : Dialect) (j : Json) : json d (.ofJson j) = .ok j.sorted := by
  induction j using Json.parts_induction with
  | step j ih =>
    cases j with
    | arr items =>
      have hitems : jsonItems d (Value.ofJsonItems items) = .ok (Json.sortedItems items) :=
        jsonItems_ofJson ih
      rw [Value.ofJson, json, hitems]
      rfl
    | obj fields =>
      have hpairs := jsonPairs_ofJson (d := d)
        (fun field hm => ih field.2 (List.mem_map_of_mem hm)) "a string key"
      rw [Value.ofJson, json, hpairs]
      rfl
    | _ => rfl

mutual

theorem inOrder_of_json : ∀ {v : Value} {j : Json}, json d v = .ok j → j.InOrder
  | .null, j, h => by cases h; rfl
  | .bool _, j, h => by cases h; rfl
  | .int _, j, h => by cases h; rfl
  | .float (.finite _), j, h => by cases h; rfl
  | .float (.infinity _), j, h => by cases h; rfl
  | .float .nan, j, h => by cases h; rfl
  | .str _, j, h => by cases h; rfl
  | .tagged .., j, h => by cases h
  | .seq items, j, h => by
    obtain ⟨read, hread, h⟩ := Outcome.bind_eq_ok.mp h
    cases Outcome.pure_eq_ok.mp h
    exact Json.inOrder_arr (inOrder_of_jsonItems hread)
  | .map pairs, j, h => by
    obtain ⟨read, hread, h⟩ := Outcome.bind_eq_ok.mp h
    cases Outcome.pure_eq_ok.mp h
    exact Json.inOrder_obj_ofList (inOrder_of_jsonPairs hread)

theorem inOrder_of_jsonItems : ∀ {items : List Value} {read : List Json},
    jsonItems d items = .ok read → ∀ j ∈ read, j.InOrder
  | [], read, h => by
    cases h
    exact fun _ hm => absurd hm List.not_mem_nil
  | v :: rest, read, h => by
    simp only [jsonItems, Outcome.bind_eq_ok, Outcome.pure_eq_ok] at h
    obtain ⟨j, hj, more, hmore, rfl⟩ := h
    exact List.forall_mem_cons.mpr ⟨inOrder_of_json hj, inOrder_of_jsonItems hmore⟩

theorem inOrder_of_jsonPairs : ∀ {pairs : List (Value × Value)} {read : List (String × Json)}
    {expected : String}, jsonPairs d expected pairs = .ok read → ∀ field ∈ read, field.2.InOrder
  | [], read, _, h => by
    cases h
    exact fun _ hm => absurd hm List.not_mem_nil
  | (k, v) :: rest, read, _, h => by
    rw [jsonPairs] at h
    split at h
    · simp only [Outcome.bind_eq_ok, Outcome.pure_eq_ok] at h
      obtain ⟨j, hj, more, hmore, rfl⟩ := h
      exact List.forall_mem_cons.mpr ⟨inOrder_of_json hj, inOrder_of_jsonPairs hmore⟩
    · cases h

end

end Decode

end ResourceModels
