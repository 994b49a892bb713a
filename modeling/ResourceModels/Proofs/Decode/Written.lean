import ResourceModels.Proofs.Schema.Reading
import ResourceModels.Proofs.Schema.Writing

/-!
# Records that are written

A record is written as a list of fields, some of which may be left out, and is read by taking up
these fields one after the other, as each of them stands there once.
-/

namespace ResourceModels.Decode

open Yaml (Value)
open Schema (fieldOf)

variable {d : Dialect} {S : Type} {take : S → String → Value → Except Mismatch S}

theorem fields_ofJsonFields {known : List String} {written : List (String × Json)}
    (hnodup : (written.map (·.1)).Nodup) {seen : List String}
    (hseen : ∀ key ∈ written.map (·.1), key ∉ seen) (s : S) :
    fields d known take s seen (Value.ofJsonFields written) =
      written.foldlM (fun s field => take s field.1 (.ofJson field.2)) s := by
  induction written generalizing s seen with
  | nil => rfl
  | cons field rest ih =>
    obtain ⟨key, j⟩ := field
    obtain ⟨hkey, hrest⟩ := List.nodup_cons.mp hnodup
    obtain ⟨hfirst, hmore⟩ := List.forall_mem_cons.mp hseen
    have hname : fieldName d (.str key) = .ok key := rfl
    have hagain : ∀ other ∈ rest.map (·.1), other ∉ key :: seen := by
      intro other hm hother
      rcases List.mem_cons.mp hother with rfl | hother
      · exact hkey hm
      · exact hmore other hm hother
    rw [Value.ofJsonFields, fields, hname, List.foldlM_cons]
    change (if key ∈ known ∧ key ∈ seen then _ else _) = _
    rw [if_neg fun h => hfirst h.2]
    exact bind_congr fun next => ih hrest hagain next

/-- What is written of the fields of a record, some of which may be left out. -/
def written (slots : List (String × Option Json)) : List (String × Json) :=
  slots.flatMap fun field => fieldOf field.1 field.2

/-- Takes up a field that may be left out. -/
def takeSlot (take : S → String → Value → Except Mismatch S) (s : S)
    (field : String × Option Json) : Except Mismatch S :=
  field.2.elim (.ok s) fun j => take s field.1 (.ofJson j)

theorem keys_written_sublist (slots : List (String × Option Json)) :
    ((written slots).map (·.1)).Sublist (slots.map (·.1)) := by
  induction slots with
  | nil => exact List.Sublist.refl _
  | cons field rest ih =>
    rw [written, List.flatMap_cons, List.map_append]
    exact (Schema.keys_fieldOf field.1 field.2).append ih

theorem foldlM_written (slots : List (String × Option Json)) (s : S) :
    (written slots).foldlM (fun s field => take s field.1 (.ofJson field.2)) s =
      slots.foldlM (takeSlot take) s := by
  induction slots generalizing s with
  | nil => rfl
  | cons field rest ih =>
    obtain ⟨name, given⟩ := field
    rw [written, List.flatMap_cons, List.foldlM_append, List.foldlM_cons]
    have hfirst : (fieldOf name given).foldlM (fun s field => take s field.1 (.ofJson field.2)) s =
        takeSlot take s (name, given) := by
      cases given with
      | none => rfl
      | some j => simp [fieldOf, takeSlot]
    rw [hfirst]
    exact bind_congr ih

/-- A record that is written is read if its fields can be taken up one after the other. -/
theorem record_written {name : String} {order : List String} {start s : S}
    (slots : List (String × Option Json)) (hnodup : (slots.map (·.1)).Nodup)
    (h : slots.foldlM (takeSlot take) start = .ok s) :
    record d name order take start (.ofJson (.obj (written slots))) = .ok (s, .named) := by
  have hfields : fields d order take start [] (Value.ofJsonFields (written slots)) = .ok s := by
    rw [fields_ofJsonFields ((keys_written_sublist slots).nodup hnodup)
      fun _ _ => List.not_mem_nil, foldlM_written, h]
  exact Outcome.bind_eq_ok.mpr ⟨s, hfields, rfl⟩

theorem foldlM_slots_cons {field : String × Option Json} {rest : List (String × Option Json)}
    {s next t : S} (h : takeSlot take s field = .ok next)
    (hrest : rest.foldlM (takeSlot take) next = .ok t) :
    (field :: rest).foldlM (takeSlot take) s = .ok t := by
  rw [List.foldlM_cons, h]
  exact hrest

/-- A field that is given sets its part of the record. -/
theorem takeSlot_some {α : Type} {read : Value → Except Mismatch α} {x : α} (put : α → S)
    {name : String} {s : S} {j : Json} (hput : ∀ v, take s name v = (read v).map put)
    (h : read (.ofJson j) = .ok x) : takeSlot take s (name, some j) = .ok (put x) := by
  rw [takeSlot, Option.elim, hput, h]
  rfl

/-- A field that may be left out sets its part of the record, or leaves it blank. -/
theorem takeSlot_eq {α : Type} {read : Value → Except Mismatch α} {blank x : α} (put : α → S)
    {name : String} {given : Option Json} (hput : ∀ v, take (put blank) name v = (read v).map put)
    (h : Schema.slot read blank given = .ok x) :
    takeSlot take (put blank) (name, given) = .ok (put x) := by
  cases given with
  | none =>
    cases h
    rfl
  | some j => exact takeSlot_some put hput h

/-- A field that may be left out sets its part of a record that has it blank. -/
theorem takeSlot_blank {α : Type} {read : Value → Except Mismatch α} {blank x : α} {put : α → S}
    {name : String} {s : S} {given : Option Json}
    (hput : ∀ v, take s name v = do return put (← read v)) (hblank : s = put blank)
    (h : Schema.slot read blank given = .ok x) : takeSlot take s (name, given) = .ok (put x) := by
  subst hblank
  refine takeSlot_eq put (fun v => ?_) h
  rw [hput]
  cases read v <;> rfl

theorem mapValues_written (f : Json → Json) (slots : List (String × Option Json)) :
    Dict.mapValues f (written slots) =
      written (slots.map fun field => (field.1, field.2.map f)) := by
  induction slots with
  | nil => rfl
  | cons field rest ih =>
    obtain ⟨name, given⟩ := field
    rw [Dict.mapValues, written, written] at ih ⊢
    rw [List.flatMap_cons, List.map_append, ih, List.map_cons, List.flatMap_cons]
    cases given <;> rfl

/-- A record in order is written with its fields in order of name. -/
theorem sorted_written {given : String → Option Json} {order : List String}
    (order' : List String) (hperm : order'.Perm order) (hsorted : order'.Pairwise (· < ·)) :
    (Json.obj (written (order.map fun key => (key, given key)))).sorted =
      .obj (written (order'.map fun key => (key, (given key).map Json.sorted))) := by
  have hkeys : (order'.map fun key => (key, given key)).map (·.1) = order' := by
    rw [List.map_map]
    exact List.map_id order'
  have hown : Dict.Sorted (written (order'.map fun key => (key, given key))) :=
    List.pairwise_map.mp (List.Pairwise.sublist (keys_written_sublist _) (hkeys.symm ▸ hsorted))
  have hslots : (written (order'.map fun key => (key, given key))).Perm
      (written (order.map fun key => (key, given key))) :=
    (hperm.map fun key => (key, given key)).flatMap_right _
  rw [Json.sorted_obj, ← hown.eq_ofList_of_perm hslots, mapValues_written, List.map_map]
  rfl

end ResourceModels.Decode
