import ResourceModels.Proofs.Json
import ResourceModels.Schema.Reading

/-!
# Keywords of a schema that is read

The keywords of a schema are taken up one after the other. What comes out does not depend on their
order: each keyword with a meaning stands at most once and fixes its part of the schema, and the
others are collected.
-/

namespace ResourceModels.Schema

open Yaml (Value)

variable {d : Dialect} {p p' : Draft} {s : Schema} {key : String} {j : Json}

/-- Takes up one keyword. -/
def Draft.take (d : Dialect) (p : Draft) (key : String) (v : Value) : Except Mismatch Draft := do
  let p ← (p.meet? key).elim (.error (.duplicate key)) .ok
  let s := p.schema
  match key with
  | "properties" => return { p with schema := { s with properties := ← ofProperties d v } }
  | "items" => return { p with schema := { s with items := ← ofOptional d v } }
  | "not" => return { p with schema := { s with not := ← ofOptional d v } }
  | "allOf" => return { p with schema := { s with allOf := ← ofList d v } }
  | "anyOf" => return { p with schema := { s with anyOf := ← ofList d v } }
  | "oneOf" => return { p with schema := { s with oneOf := ← ofList d v } }
  | "additionalProperties" => return { p with schema := { s with additional := ← ofExtra d v } }
  | key => takeKeyword d p key v

theorem ofPairs_cons_value (key v : Value) (rest : List (Value × Value)) :
    ofPairs d p ((key, v) :: rest) = Decode.fieldName d key >>= fun name =>
      p.take d name v >>= fun p' => ofPairs d p' rest := by
  simp only [ofPairs, Draft.take, bind, Except.bind]
  cases Decode.fieldName d key with
  | error cause => rfl
  | ok name =>
    dsimp only
    cases (p.meet? name).elim (Except.error (Mismatch.duplicate name)) .ok with
    | error cause => rfl
    | ok p =>
      dsimp only
      split
      · cases ofProperties d v <;> rfl
      · cases ofOptional d v <;> rfl
      · cases ofOptional d v <;> rfl
      · cases ofList d v <;> rfl
      · cases ofList d v <;> rfl
      · cases ofList d v <;> rfl
      · cases ofExtra d v <;> rfl
      · simp only [*]

theorem ofPairs_cons (key : String) (v : Value) (rest : List (Value × Value)) :
    ofPairs d p ((.str key, v) :: rest) = p.take d key v >>= fun p' => ofPairs d p' rest :=
  ofPairs_cons_value (.str key) v rest

/-- What a keyword says, or what it is if it is not given. -/
def slot {α : Type} (read : Value → Except Mismatch α) (blank : α) (given : Option Json) :
    Except Mismatch α :=
  given.elim (.ok blank) fun j => read (.ofJson j)

/-- A keyword, given or not, makes of a schema what another has there. -/
def Gives (d : Dialect) (blank s : Schema) (given : Option Json) : String → Prop
  | "$ref" => slot (Decode.optional (Decode.text d)) blank.keywords.reference given =
      .ok s.keywords.reference
  | "type" => slot (Decode.optional (Decode.text d)) blank.keywords.typeName given =
      .ok s.keywords.typeName
  | "format" => slot (Decode.optional (Decode.text d)) blank.keywords.format given =
      .ok s.keywords.format
  | "description" => slot (Decode.optional (Decode.text d)) blank.keywords.description given =
      .ok s.keywords.description
  | "properties" => slot (ofProperties d) blank.properties given = .ok s.properties
  | "items" => slot (ofOptional d) blank.items given = .ok s.items
  | "required" => slot (Decode.list d (Decode.text d)) blank.keywords.required given =
      .ok s.keywords.required
  | "allOf" => slot (ofList d) blank.allOf given = .ok s.allOf
  | "anyOf" => slot (ofList d) blank.anyOf given = .ok s.anyOf
  | "oneOf" => slot (ofList d) blank.oneOf given = .ok s.oneOf
  | "not" => slot (ofOptional d) blank.not given = .ok s.not
  | "additionalProperties" => slot (ofExtra d) blank.additional given = .ok s.additional
  | "enum" => slot (Decode.list d (Decode.json d)) blank.keywords.values given =
      .ok s.keywords.values
  | "default" => slot (Decode.optional (Decode.json d)) blank.keywords.default? given =
      .ok s.keywords.default?
  | _ => True

theorem Draft.meet?_known (hk : key ∈ knownKeywords) :
    p.meet? key = if key ∈ p.seen then none else some { p with seen := key :: p.seen } := by
  simp [meet?, hk]

/-- A keyword with a meaning changes its own part of the schema only. -/
theorem Draft.take_known (hk : key ∈ knownKeywords) (h : p.take d key (.ofJson j) = .ok p') :
    key ∉ p.seen ∧ p'.seen = key :: p.seen ∧ p'.others = p.others ∧
      (∀ s, Gives d p'.schema s none key ↔ Gives d p.schema s (some j) key) ∧
      ∀ s given other, other ≠ key →
        (Gives d p'.schema s given other ↔ Gives d p.schema s given other) := by
  rw [take, Draft.meet?_known hk] at h
  split at h
  · cases h
  · next hseen =>
    simp only [knownKeywords, List.mem_cons, List.not_mem_nil, or_false] at hk
    rcases hk with rfl | rfl | rfl | rfl | rfl | rfl | rfl | rfl | rfl | rfl | rfl | rfl | rfl | rfl
    all_goals
      simp only [Option.elim, takeKeyword, withKeywords] at h
      obtain ⟨p, hp, h⟩ := Outcome.bind_eq_ok.mp h
      cases hp
      obtain ⟨x, hread, h⟩ := Outcome.bind_eq_ok.mp h
      cases Outcome.pure_eq_ok.mp h
      refine ⟨hseen, rfl, rfl, fun s => ?_, fun s given other hother => ?_⟩
      · simp only [Gives, slot, Option.elim, hread]
      · unfold Gives
        split <;> first | rfl | exact absurd rfl hother

theorem Draft.exists_take (hk : key ∈ knownKeywords) (hseen : key ∉ p.seen)
    (h : Gives d p.schema s (some j) key) : ∃ p', p.take d key (.ofJson j) = .ok p' := by
  have hmeet := Draft.meet?_known (p := p) hk
  rw [if_neg hseen] at hmeet
  rw [take, hmeet]
  simp only [knownKeywords, List.mem_cons, List.not_mem_nil, or_false] at hk
  rcases hk with rfl | rfl | rfl | rfl | rfl | rfl | rfl | rfl | rfl | rfl | rfl | rfl | rfl | rfl
  all_goals
    simp only [Gives, slot, Option.elim] at h
    simp only [Option.elim, takeKeyword, h, bind, Except.bind]
    exact ⟨_, rfl⟩

theorem Draft.take_unknown (hk : key ∉ knownKeywords) (v : Value) : p.take d key v =
    if Decode.hasTag v then .error .ownTag
    else .ok { p with others := p.others ++ [(key, v)] } := by
  have hmeet : p.meet? key = some p := if_pos hk
  simp only [knownKeywords, List.mem_cons, List.not_mem_nil, or_false, not_or] at hk
  simp only [take, hmeet, Option.elim, bind, Except.bind]
  simp [takeKeyword, hk]

theorem Draft.take_other (hk : key ∉ knownKeywords) (j : Json) :
    p.take d key (.ofJson j) = .ok { p with others := p.others ++ [(key, .ofJson j)] } := by
  rw [take_unknown hk, Decode.hasTag_ofJson]
  rfl

/-- The fields without a meaning of their own, each in order. -/
def otherFields (fields : List (String × Json)) : List (String × Json) :=
  Dict.mapValues Json.sorted (fields.filter (·.1 ∉ knownKeywords))

/-- The names of the fields with a meaning. -/
def knownFields (fields : List (String × Json)) : List String :=
  (fields.map (·.1)).filter (· ∈ knownKeywords)

def Draft.collected (d : Dialect) (p : Draft) : Except Mismatch (List (String × Json)) :=
  p.others.mapM fun pair => do return (pair.1, ← Decode.json d pair.2)

/-- A schema that is a draft with further fields taken up. -/
structure Takes (d : Dialect) (p : Draft) (fields : List (String × Json)) (s : Schema) : Prop where
  once : (knownFields fields).Nodup
  fresh : ∀ key ∈ knownFields fields, key ∉ p.seen
  keyword : ∀ key ∈ knownKeywords, Gives d p.schema s (Dict.get? fields key) key
  extensions : ∃ collected, p.collected d = .ok collected ∧
    s.keywords.extensions = Dict.ofList (collected ++ otherFields fields)

theorem gives_none_iff {blank : Schema} :
    (∀ key ∈ knownKeywords, Gives d blank s none key) ↔
      s = { blank with
        keywords := { blank.keywords with extensions := s.keywords.extensions } } := by
  constructor
  · intro h
    have hall : ∀ key ∈ knownKeywords, Gives d blank s none key := h
    simp only [knownKeywords, List.forall_mem_cons, Gives, slot, Option.elim,
      Except.ok.injEq] at hall
    obtain ⟨k, properties, items, additional, allOf, anyOf, oneOf, not⟩ := s
    obtain ⟨reference, typeName, format, description, required, values, default?, extensions⟩ := k
    simp_all
  · intro h key hk
    rw [h]
    unfold Gives
    split <;> first | rfl | trivial

theorem mem_knownFields (hk : key ∈ knownKeywords) {fields : List (String × Json)} :
    key ∈ knownFields fields ↔ key ∈ fields.map (·.1) := by
  simp [knownFields, hk]

theorem finish_eq_ok : finish d p = .ok s ↔ Takes d p [] s := by
  rw [finish, Outcome.bind_eq_ok]
  constructor
  · rintro ⟨collected, hcollected, h⟩
    cases Outcome.pure_eq_ok.mp h
    refine ⟨.nil, fun _ hm => (List.not_mem_nil hm).elim, gives_none_iff.mpr rfl, collected,
      hcollected, ?_⟩
    rw [otherFields, List.filter_nil, Dict.mapValues, List.map_nil, List.append_nil]
  · rintro ⟨-, -, hkeyword, collected, hcollected, hextensions⟩
    rw [otherFields, List.filter_nil, Dict.mapValues, List.map_nil, List.append_nil] at hextensions
    refine ⟨collected, hcollected, Outcome.pure_eq_ok.mpr ?_⟩
    rw [gives_none_iff.mp hkeyword, hextensions]

theorem takes_cons_known (hk : key ∈ knownKeywords) {rest : List (String × Json)} :
    Takes d p ((key, j) :: rest) s ↔ ∃ p', p.take d key (.ofJson j) = .ok p' ∧
      Takes d p' rest s := by
  have hfields : knownFields ((key, j) :: rest) = key :: knownFields rest := by
    simp [knownFields, hk]
  have hothers : otherFields ((key, j) :: rest) = otherFields rest := by
    simp [otherFields, hk]
  have hcollected : ∀ {p'}, p.take d key (.ofJson j) = .ok p' → p'.collected d = p.collected d := by
    intro p' htake
    rw [Draft.collected, (Draft.take_known hk htake).2.2.1, Draft.collected]
  constructor
  · intro h
    have hown := h.keyword key hk
    rw [Dict.get?, if_pos rfl] at hown
    have honce := h.once
    have hfresh := h.fresh
    rw [hfields] at honce hfresh
    obtain ⟨hnot, honce⟩ := List.nodup_cons.mp honce
    obtain ⟨hseen, hfresh⟩ := List.forall_mem_cons.mp hfresh
    obtain ⟨p', htake⟩ := Draft.exists_take hk hseen hown
    obtain ⟨-, hseen', -, hsame, hothers'⟩ := Draft.take_known hk htake
    refine ⟨p', htake, honce, fun other hother => ?_, fun other hother => ?_, ?_⟩
    · rw [hseen', List.mem_cons, not_or]
      exact ⟨fun heq => hnot (heq ▸ hother), hfresh other hother⟩
    · by_cases heq : other = key
      · subst heq
        rw [mem_knownFields hk] at hnot
        rw [Dict.get?_eq_none_iff.mpr hnot, hsame]
        exact hown
      · have hgiven := h.keyword other hother
        rw [Dict.get?, if_neg (Ne.symm heq)] at hgiven
        exact (hothers' s _ other heq).mpr hgiven
    · rw [hcollected htake, ← hothers]
      exact h.extensions
  · rintro ⟨p', htake, h⟩
    obtain ⟨hseen, hseen', -, hsame, hothers'⟩ := Draft.take_known hk htake
    have hnot : key ∉ knownFields rest := fun hm =>
      h.fresh key hm (hseen' ▸ List.mem_cons_self)
    refine ⟨?_, ?_, fun other hother => ?_, ?_⟩
    · rw [hfields]
      exact List.nodup_cons.mpr ⟨hnot, h.once⟩
    · rw [hfields]
      refine List.forall_mem_cons.mpr ⟨hseen, fun other hother hm => h.fresh other hother ?_⟩
      rw [hseen']
      exact List.mem_cons_of_mem _ hm
    · have hgiven := h.keyword other hother
      by_cases heq : other = key
      · subst heq
        rw [mem_knownFields hk] at hnot
        rw [Dict.get?_eq_none_iff.mpr hnot, hsame] at hgiven
        rw [Dict.get?, if_pos rfl]
        exact hgiven
      · rw [Dict.get?, if_neg (Ne.symm heq)]
        exact (hothers' s _ other heq).mp hgiven
    · rw [← hcollected htake, hothers]
      exact h.extensions

theorem Draft.collected_concat (d : Dialect) (p : Draft) (key : String) (j : Json) :
    Draft.collected d { p with others := p.others ++ [(key, .ofJson j)] } =
      (p.collected d).map (· ++ [(key, j.sorted)]) := by
  simp only [collected, List.mapM_append, List.mapM_cons, List.mapM_nil, Decode.json_ofJson]
  cases p.others.mapM fun pair => do return (pair.1, ← Decode.json d pair.2) <;> rfl

theorem takes_cons_other (hk : key ∉ knownKeywords) {rest : List (String × Json)} :
    Takes d p ((key, j) :: rest) s ↔
      Takes d { p with others := p.others ++ [(key, .ofJson j)] } rest s := by
  have hfields : knownFields ((key, j) :: rest) = knownFields rest := by
    simp [knownFields, hk]
  have hothers : otherFields ((key, j) :: rest) = (key, j.sorted) :: otherFields rest := by
    simp [otherFields, hk, Dict.mapValues]
  have hget : ∀ other ∈ knownKeywords,
      Dict.get? ((key, j) :: rest) other = Dict.get? rest other := by
    intro other hother
    rw [Dict.get?, if_neg]
    rintro rfl
    exact hk hother
  constructor
  · rintro ⟨honce, hfresh, hkeyword, collected, hcollected, hextensions⟩
    rw [hfields] at honce hfresh
    refine ⟨honce, hfresh, fun other hother => hget other hother ▸ hkeyword other hother,
      collected ++ [(key, j.sorted)], ?_, ?_⟩
    · rw [Draft.collected_concat, hcollected]
      rfl
    · rw [hextensions, hothers, List.append_assoc, List.singleton_append]
  · rintro ⟨honce, hfresh, hkeyword, all, hall, hextensions⟩
    rw [Draft.collected_concat, Outcome.map_eq_ok] at hall
    obtain ⟨collected, hcollected, rfl⟩ := hall
    rw [List.append_assoc, List.singleton_append, ← hothers] at hextensions
    rw [← hfields] at honce hfresh
    exact ⟨honce, hfresh, fun other hother => (hget other hother).symm ▸ hkeyword other hother,
      collected, hcollected, hextensions⟩

theorem ofPairs_eq_ok {fields : List (String × Json)} :
    ofPairs d p (Value.ofJsonFields fields) = .ok s ↔ Takes d p fields s := by
  induction fields generalizing p with
  | nil => exact finish_eq_ok
  | cons field rest ih =>
    obtain ⟨key, j⟩ := field
    rw [Value.ofJsonFields, ofPairs_cons, Outcome.bind_eq_ok]
    simp only [ih]
    by_cases hk : key ∈ knownKeywords
    · rw [takes_cons_known hk]
    · rw [takes_cons_other hk, Draft.take_other hk]
      simp only [Except.ok.injEq, exists_eq_left']

end ResourceModels.Schema
