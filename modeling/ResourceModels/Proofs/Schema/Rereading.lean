import ResourceModels.Proofs.Schema.Orderly
import ResourceModels.Proofs.Schema.RoundTrip

/-!
# Schemas that are written and read again

Whatever the dialect, a schema in order is read again as itself, but for one thing: a default that
is null is written as null, and null is read as no default at all. A default is null where a number
was given that JSON has no form for.
-/

namespace ResourceModels

open Yaml (Value)

/-- The value, unless it is null. -/
def Json.present? : Json → Option Json
  | .null => none
  | j => some j

theorem Json.present?_eq_some {j : Json} (h : j ≠ .null) : j.present? = some j := by
  cases j with
  | null => exact absurd rfl h
  | _ => rfl

theorem bind_present?_eq_self_iff {x : Option Json} :
    x.bind Json.present? = x ↔ x ≠ some .null := by
  rcases x with _ | (_ | _ | _ | _ | _ | _ | _) <;> simp [Json.present?]

/-- The keywords without a default that is null. -/
def Keywords.settled (k : Keywords) : Keywords :=
  { k with default? := k.default?.bind Json.present? }

/-- No default is null. -/
def Keywords.DefaultPresent (k : Keywords) : Prop := k.default? ≠ some .null

theorem Keywords.settled_eq_self_iff {k : Keywords} : k.settled = k ↔ k.DefaultPresent := by
  rw [DefaultPresent, ← bind_present?_eq_self_iff]
  constructor
  · exact congrArg Keywords.default?
  · intro h
    rw [settled, h]

namespace Schema

/-- The schema without a default that is null, in it or in a schema within it. -/
def settled : Schema → Schema := mapKeywords Keywords.settled

theorem settled_eq (s : Schema) :
    s.settled = { s.withParts settled with keywords := s.keywords.settled } :=
  mapNodes_eq_withParts s

theorem settled_eq_self_iff {s : Schema} :
    s.settled = s ↔ s.Throughout Keywords.DefaultPresent := by
  rw [settled, mapKeywords_eq_self_iff]
  simp only [Keywords.settled_eq_self_iff]

section

variable {d : Dialect}

theorem slot_text (x : Option String) :
    slot (Decode.optional (Decode.text d)) none (x.map .str) = .ok x := by
  cases x <;> rfl

theorem slot_json {x : Option Json} (h : ∀ j ∈ x, j.InOrder) :
    slot (Decode.optional (Decode.json d)) none x = .ok (x.bind Json.present?) := by
  cases x with
  | none => rfl
  | some j =>
    by_cases hj : j = .null
    · subst hj
      rfl
    · rw [slot, Option.elim, optional_of_ne_null _ hj, Decode.json_ofJson, h j rfl,
        Option.bind_some, Json.present?_eq_some hj]
      rfl

/-- A list is read again if each of its items is. -/
theorem list_ofJson {α β : Type} {read : Value → Except Mismatch β} {write : α → Json} {f : α → β}
    {xs : List α} (h : ∀ a ∈ xs, read (.ofJson (write a)) = .ok (f a)) :
    Decode.list d read (.ofJson (.arr (xs.map write))) = .ok (xs.map f) := by
  rw [Decode.list, Value.untag_ofJson]
  change (Value.ofJsonItems (xs.map write)).mapM read = _
  rw [Value.ofJsonItems_eq, List.map_map, Outcome.mapM_eq_ok, List.forall₂_map_left_iff,
    List.forall₂_map_right_iff, List.forall₂_same]
  exact h

theorem slot_list {α β : Type} {read : Value → Except Mismatch β} {write : α → Json} {f : α → β}
    {xs : List α} (h : ∀ a ∈ xs, read (.ofJson (write a)) = .ok (f a)) :
    slot (Decode.list d read) [] (filled? (xs.map write)) = .ok (xs.map f) := by
  cases xs with
  | nil => rfl
  | cons a rest => exact list_ofJson (d := d) h

theorem slot_values {values : List Json} (h : ∀ j ∈ values, j.InOrder) :
    slot (Decode.list d (Decode.json d)) [] (filled? values) = .ok values := by
  have hread : slot (Decode.list d (Decode.json d)) [] (filled? (values.map id)) =
      .ok (values.map id) :=
    slot_list fun j hm => (Decode.json_ofJson d j).trans (congrArg Except.ok (h j hm))
  rwa [List.map_id] at hread

theorem slot_texts (texts : List String) :
    slot (Decode.list d (Decode.text d)) [] (filled? (texts.map .str)) = .ok texts := by
  have hread : slot (Decode.list d (Decode.text d)) [] (filled? (texts.map .str)) =
      .ok (texts.map id) := slot_list fun _ _ => rfl
  rwa [List.map_id] at hread

theorem slot_schemas {members : List Schema}
    (h : ∀ s ∈ members, ofValue d (.ofJson s.toJson) = .ok s.settled) :
    slot (ofList d) [] (filled? (members.map toJson)) = .ok (members.map settled) := by
  rw [← slot_list (d := d) h]
  cases members with
  | nil => rfl
  | cons s rest => exact ofItems_eq d _

theorem slot_schema {part : Option Schema}
    (h : ∀ s ∈ part, ofValue d (.ofJson s.toJson) = .ok s.settled) :
    slot (ofOptional d) none (part.map toJson) = .ok (part.map settled) := by
  cases part with
  | none => rfl
  | some s =>
    rw [Option.map_some, slot, Option.elim, ofOptional_ofJson,
      optional_of_ne_null _ Json.noConfusion, h s rfl]
    rfl

theorem slot_properties {properties : List (String × Schema)} (hsorted : Dict.Sorted properties)
    (h : ∀ p ∈ properties, ofValue d (.ofJson p.2.toJson) = .ok p.2.settled) :
    slot (ofProperties d) [] (filledMap? (Dict.mapValues toJson properties)) =
      .ok (Dict.mapValues settled properties) := by
  have hread : ReadEach d (Dict.mapValues toJson properties)
      (Dict.mapValues settled properties) := by
    rw [ReadEach, Dict.mapValues, Dict.mapValues, List.forall₂_map_left_iff,
      List.forall₂_map_right_iff, List.forall₂_same]
    exact fun p hm => ⟨rfl, h p hm⟩
  cases properties with
  | nil => rfl
  | cons p rest =>
    rw [filledMap?, if_neg (by simp [Dict.mapValues]), slot, Option.elim, Value.ofJson,
      ofProperties, Outcome.bind_eq_ok]
    refine ⟨_, ofNamed_eq_ok.mpr hread, Outcome.pure_eq_ok.mpr ?_⟩
    exact (hsorted.mapValues settled).ofList_eq

theorem slot_extra {additional : Option (Extra Schema)}
    (h : ∀ s ∈ extraPart? additional, ofValue .buffered (.ofJson s.toJson) = .ok s.settled) :
    slot (ofExtra d) none (extraJson additional) = .ok (additional.map (Extra.map settled)) := by
  rcases additional with _ | (b | s)
  · rfl
  · rfl
  · exact ofExtra_eq_ok.mpr (.inr (.inr ⟨s.fields, s.settled, rfl, rfl, h s rfl⟩))

end

/-- An extension is in order, so it is kept as it is. -/
theorem Orderly.extension?_eq {s : Schema} (h : s.Orderly) (key : String) :
    s.keywords.extension? key =
      if key ∈ knownKeywords then none else (Dict.get? s.fields key).map Json.sorted := by
  rw [h.extensionsApart.get?_fields]
  split
  · next hk => exact Dict.get?_eq_none_iff.mpr fun hm => h.keywords.apart key hm hk
  · cases hextension : s.keywords.extension? key with
    | none => rfl
    | some j =>
      have horder : j.sorted = j := h.keywords.extensions _ (Dict.mem_of_get? hextension)
      rw [Option.map_some, horder]

theorem ofValue_toJson (d : Dialect) {s : Schema} (h : s.Orderly) :
    ofValue d (.ofJson s.toJson) = .ok s.settled := by
  induction s using parts_induction generalizing d with
  | step s ih =>
    have hown : ∀ (d : Dialect) {part : Schema}, part ∈ s.parts →
        ofValue d (.ofJson part.toJson) = .ok part.settled :=
      fun d _ hp => ih _ hp d (h.part hp)
    have hapart := h.extensionsApart
    refine ofPairs_eq_ok.mpr (takes_of_gives hapart.keys_nodup ?_ (fun key hk => ?_) fun key => ?_)
    · rw [settled_eq]
      exact h.keywords.sorted
    · rw [hapart.get?_fields, if_pos hk, settled_eq]
      simp only [knownKeywords, List.mem_cons, List.not_mem_nil, or_false] at hk
      rcases hk with rfl | rfl | rfl | rfl | rfl | rfl | rfl | rfl | rfl | rfl | rfl | rfl | rfl | rfl
      · exact slot_text _
      · exact slot_text _
      · exact slot_text _
      · exact slot_text _
      · exact slot_properties h.properties fun p hm =>
          hown d (mem_parts.mpr (.inl (List.mem_map_of_mem hm)))
      · exact slot_schema fun part hm => hown d (mem_parts.mpr (.inr (.inl hm)))
      · exact slot_texts _
      · exact slot_schemas fun part hm => hown d (mem_parts.mpr (by simp [hm]))
      · exact slot_schemas fun part hm => hown d (mem_parts.mpr (by simp [hm]))
      · exact slot_schemas fun part hm => hown d (mem_parts.mpr (by simp [hm]))
      · exact slot_schema fun part hm => hown d (mem_parts.mpr (by simp [Option.mem_def.mp hm]))
      · exact slot_extra fun part hm =>
          hown .buffered (mem_parts.mpr (by simp [Option.mem_def.mp hm]))
      · exact slot_values h.keywords.values
      · exact slot_json h.keywords.default
    · rw [settled_eq]
      exact h.extension?_eq key

end Schema

end ResourceModels
