import ResourceModels.Proofs.Decode
import ResourceModels.Proofs.Schema.Nodes
import ResourceModels.Proofs.Schema.Reading
import ResourceModels.Proofs.Schema.Writing

/-!
# Schemas in order

In every schema that is read, from whatever value, the extensions and the properties stand in order
of name, no extension has the name of a keyword with a meaning, and the fields of all JSON values
stand in order. This holds at each schema within, since each is read in the same way.
-/

namespace ResourceModels

open Yaml (Value)

/-- Keywords as they are read: the extensions in order and apart from the keywords with a meaning,
and every JSON value in order. -/
structure Keywords.InOrder (k : Keywords) : Prop where
  sorted : Dict.Sorted k.extensions
  apart : ∀ key ∈ Dict.keys k.extensions, key ∉ Schema.knownKeywords
  extensions : ∀ field ∈ k.extensions, field.2.InOrder
  values : ∀ j ∈ k.values, j.InOrder
  default : ∀ j ∈ k.default?, j.InOrder

namespace Schema

/-- At every schema within, the keywords and the properties are in order. -/
def Orderly (s : Schema) : Prop := ∀ n ∈ s.nodes, n.keywords.InOrder ∧ Dict.Sorted n.properties

section

variable {s : Schema}

theorem orderly_iff_parts : s.Orderly ↔
    (s.keywords.InOrder ∧ Dict.Sorted s.properties) ∧ ∀ part ∈ s.parts, part.Orderly := by
  simp only [Orderly, nodes_eq s, List.forall_mem_cons, List.forall_mem_flatMap]

theorem Orderly.keywords (h : s.Orderly) : s.keywords.InOrder := (orderly_iff_parts.mp h).1.1

theorem Orderly.properties (h : s.Orderly) : Dict.Sorted s.properties :=
  (orderly_iff_parts.mp h).1.2

theorem Orderly.part (h : s.Orderly) {part : Schema} (hp : part ∈ s.parts) : part.Orderly :=
  (orderly_iff_parts.mp h).2 part hp

theorem Orderly.extensionsApart (h : s.Orderly) : s.ExtensionsApart :=
  ⟨h.keywords.sorted, h.keywords.apart⟩

/-- A schema is in order if what stands under each of its keywords is. -/
theorem orderly_iff : s.Orderly ↔
    s.keywords.InOrder ∧ (Dict.Sorted s.properties ∧ ∀ p ∈ s.properties, p.2.Orderly) ∧
      (∀ part ∈ s.items, part.Orderly) ∧ (∀ part ∈ extraPart? s.additional, part.Orderly) ∧
        (∀ part ∈ s.allOf, part.Orderly) ∧ (∀ part ∈ s.anyOf, part.Orderly) ∧
          (∀ part ∈ s.oneOf, part.Orderly) ∧ ∀ part ∈ s.not, part.Orderly := by
  rw [orderly_iff_parts]
  simp only [mem_parts, or_imp, forall_and, List.mem_map, forall_exists_index, and_imp,
    forall_apply_eq_imp_iff₂, Option.mem_def, and_assoc]

theorem Orderly.withKeywords (h : s.Orderly) {k : Keywords} (hk : k.InOrder) :
    Orderly { s with keywords := k } :=
  orderly_iff_parts.mpr ⟨⟨hk, h.properties⟩, fun _ hp => h.part hp⟩

end

theorem orderly_blank : Orderly {} := by
  refine orderly_iff_parts.mpr ⟨⟨⟨.nil, List.forall_mem_nil _, List.forall_mem_nil _,
    List.forall_mem_nil _, ?_⟩, .nil⟩, List.forall_mem_nil _⟩
  exact fun _ hm => absurd hm (Option.not_mem_none _)

/-- What is read of a value, as each of the things that may hold schemas, is in order. -/
structure ReadsOrderly (d : Dialect) (v : Value) : Prop where
  properties : ∀ {properties}, ofProperties d v = .ok properties →
    Dict.Sorted properties ∧ ∀ p ∈ properties, p.2.Orderly
  option : ∀ {part}, ofOptional d v = .ok part → ∀ s ∈ part, s.Orderly
  list : ∀ {members}, ofList d v = .ok members → ∀ s ∈ members, s.Orderly
  extra : ∀ {additional}, ofExtra d v = .ok additional →
    ∀ s ∈ extraPart? additional, s.Orderly

/-- A draft of which all that was taken up is in order. -/
structure Draft.Orderly (p : Draft) : Prop where
  schema : p.schema.Orderly
  extensions : p.schema.keywords.extensions = []
  others : ∀ pair ∈ p.others, pair.1 ∉ knownKeywords

theorem Draft.orderly_start : Draft.Orderly {} :=
  ⟨orderly_blank, rfl, List.forall_mem_nil _⟩

section

variable {d : Dialect} {p p' : Draft} {s : Schema}

theorem Draft.Orderly.finish (hp : p.Orderly) (h : finish d p = .ok s) : s.Orderly := by
  obtain ⟨collected, hcollected, h⟩ := Outcome.bind_eq_ok.mp h
  cases Outcome.pure_eq_ok.mp h
  have hread : ∀ field ∈ collected, field.1 ∉ knownKeywords ∧ field.2.InOrder := by
    intro field hm
    obtain ⟨pair, hpair, hfield⟩ := Outcome.exists_of_mem_mapM hcollected hm
    obtain ⟨j, hj, hfield⟩ := Outcome.bind_eq_ok.mp hfield
    cases Outcome.pure_eq_ok.mp hfield
    exact ⟨hp.others pair hpair, Decode.inOrder_of_json hj⟩
  have hown := hp.schema.keywords
  refine hp.schema.withKeywords ⟨Dict.sorted_ofList _, ?_, ?_, hown.values, hown.default⟩
  · intro key hkey
    obtain ⟨field, hm, rfl⟩ := List.mem_map.mp hkey
    exact (hread field (Dict.mem_of_mem_ofList hm)).1
  · exact fun field hm => (hread field (Dict.mem_of_mem_ofList hm)).2

theorem Draft.Orderly.take (hp : p.Orderly) {v : Value} (hv : ReadsOrderly d v) {key : String}
    (h : p.take d key v = .ok p') : p'.Orderly := by
  obtain ⟨hschema, hextensions, hothers⟩ := hp
  by_cases hk : key ∈ knownKeywords
  · rw [Draft.take, Draft.meet?_known hk] at h
    split at h
    · cases h
    obtain ⟨hown, hnamed, hitems, hextra, hall, hany, hone, hnot⟩ := orderly_iff.mp hschema
    have hkeep : ∀ {k : Keywords}, k.InOrder → Schema.Orderly { p.schema with keywords := k } :=
      fun hk => hschema.withKeywords hk
    obtain ⟨hsorted, hapart, hvalues, hlist, hdefault⟩ := id hown
    simp only [knownKeywords, List.mem_cons, List.not_mem_nil, or_false] at hk
    rcases hk with rfl | rfl | rfl | rfl | rfl | rfl | rfl | rfl | rfl | rfl | rfl | rfl | rfl | rfl
    all_goals
      simp only [Option.elim, takeKeyword, withKeywords] at h
      obtain ⟨q, hq, h⟩ := Outcome.bind_eq_ok.mp h
      cases hq
      obtain ⟨x, hread, h⟩ := Outcome.bind_eq_ok.mp h
      cases Outcome.pure_eq_ok.mp h
      refine ⟨?_, hextensions, hothers⟩
    · exact hkeep ⟨hsorted, hapart, hvalues, hlist, hdefault⟩
    · exact hkeep ⟨hsorted, hapart, hvalues, hlist, hdefault⟩
    · exact hkeep ⟨hsorted, hapart, hvalues, hlist, hdefault⟩
    · exact hkeep ⟨hsorted, hapart, hvalues, hlist, hdefault⟩
    · exact orderly_iff.mpr ⟨hown, hv.properties hread, hitems, hextra, hall, hany, hone, hnot⟩
    · exact orderly_iff.mpr ⟨hown, hnamed, hv.option hread, hextra, hall, hany, hone, hnot⟩
    · exact hkeep ⟨hsorted, hapart, hvalues, hlist, hdefault⟩
    · exact orderly_iff.mpr ⟨hown, hnamed, hitems, hextra, hv.list hread, hany, hone, hnot⟩
    · exact orderly_iff.mpr ⟨hown, hnamed, hitems, hextra, hall, hv.list hread, hone, hnot⟩
    · exact orderly_iff.mpr ⟨hown, hnamed, hitems, hextra, hall, hany, hv.list hread, hnot⟩
    · exact orderly_iff.mpr ⟨hown, hnamed, hitems, hextra, hall, hany, hone, hv.option hread⟩
    · exact orderly_iff.mpr ⟨hown, hnamed, hitems, hv.extra hread, hall, hany, hone, hnot⟩
    · exact hkeep ⟨hsorted, hapart, hvalues, Decode.inOrder_of_list hread, hdefault⟩
    · exact hkeep ⟨hsorted, hapart, hvalues, hlist, Decode.inOrder_of_optional hread⟩
  · rw [Draft.take_unknown hk] at h
    split at h
    · cases h
    · cases h
      refine ⟨hschema, hextensions, fun pair hm => ?_⟩
      rcases List.mem_append.mp hm with hm | hm
      · exact hothers pair hm
      · rw [List.mem_singleton.mp hm]
        exact hk

end

theorem orderly_of_null {d : Dialect} {s : Schema} {expected : String}
    (h : (if d.nullIsEmpty then .ok {} else Decode.mismatch d .null expected) = .ok s) :
    s.Orderly := by
  split at h
  · cases h
    exact orderly_blank
  · cases h

/-- Null may stand for an empty list or map. -/
theorem eq_nil_of_blank {α : Type} {isBlank : Bool} {cause : Mismatch} {xs : List α}
    (h : (if isBlank then .ok [] else .error cause : Except Mismatch (List α)) = .ok xs) :
    xs = [] := by
  split at h <;> cases h
  rfl

theorem orderly_ofList {read : List (String × Schema)} (h : ∀ p ∈ read, p.2.Orderly) :
    Dict.Sorted (Dict.ofList read) ∧ ∀ p ∈ Dict.ofList read, p.2.Orderly :=
  ⟨Dict.sorted_ofList _, fun p hm => h p (Dict.mem_of_mem_ofList hm)⟩

mutual

theorem orderly_of_ofValue {d : Dialect} {v : Value} {s : Schema} (h : ofValue d v = .ok s) :
    s.Orderly := by
  cases v with
  | map pairs => exact orderly_of_ofPairs Draft.orderly_start h
  | tagged tag v => exact orderly_of_ofUntagged h
  | null => exact orderly_of_null h
  | _ => cases h
termination_by structural v

theorem orderly_of_ofUntagged {d : Dialect} {v : Value} {s : Schema}
    (h : ofUntagged d v = .ok s) : s.Orderly := by
  cases v with
  | map pairs => exact orderly_of_ofPairs Draft.orderly_start h
  | null => exact orderly_of_null h
  | _ => cases h
termination_by structural v

theorem orderly_of_ofPairs {d : Dialect} {p : Draft} {pairs : List (Value × Value)} {s : Schema}
    (hp : p.Orderly) (h : ofPairs d p pairs = .ok s) : s.Orderly := by
  cases pairs with
  | nil => exact hp.finish h
  | cons pair rest =>
    obtain ⟨key, v⟩ := pair
    rw [ofPairs_cons_value] at h
    obtain ⟨name, -, h⟩ := Outcome.bind_eq_ok.mp h
    obtain ⟨p', htake, h⟩ := Outcome.bind_eq_ok.mp h
    have hreads : ReadsOrderly d v :=
      ⟨orderly_of_ofProperties, orderly_of_ofOptional, orderly_of_ofList, orderly_of_ofExtra⟩
    exact orderly_of_ofPairs (hp.take hreads htake) h
termination_by structural pairs

theorem orderly_of_ofOptional {d : Dialect} {v : Value} {part : Option Schema}
    (h : ofOptional d v = .ok part) : ∀ s ∈ part, s.Orderly := by
  cases v with
  | map pairs =>
    obtain ⟨s, hs, h⟩ := Outcome.bind_eq_ok.mp h
    cases Outcome.pure_eq_ok.mp h
    rintro _ ⟨⟩
    exact orderly_of_ofPairs Draft.orderly_start hs
  | tagged tag v =>
    obtain ⟨s, hs, h⟩ := Outcome.bind_eq_ok.mp h
    cases Outcome.pure_eq_ok.mp h
    rintro _ ⟨⟩
    exact orderly_of_ofUntagged hs
  | null =>
    cases h
    exact fun _ hm => absurd hm (Option.not_mem_none _)
  | _ => cases h
termination_by structural v

theorem orderly_of_ofProperties {d : Dialect} {v : Value} {properties : List (String × Schema)}
    (h : ofProperties d v = .ok properties) :
    Dict.Sorted properties ∧ ∀ p ∈ properties, p.2.Orderly := by
  cases v with
  | map pairs =>
    obtain ⟨read, hread, h⟩ := Outcome.bind_eq_ok.mp h
    cases Outcome.pure_eq_ok.mp h
    exact orderly_ofList (orderly_of_ofNamed hread)
  | tagged tag v =>
    cases v with
    | map pairs =>
      obtain ⟨read, hread, h⟩ := Outcome.bind_eq_ok.mp h
      cases Outcome.pure_eq_ok.mp h
      exact orderly_ofList (orderly_of_ofNamed hread)
    | _ => simp [eq_nil_of_blank h, Dict.Sorted]
  | _ => simp [eq_nil_of_blank h, Dict.Sorted]
termination_by structural v

theorem orderly_of_ofNamed {d : Dialect} {pairs : List (Value × Value)}
    {read : List (String × Schema)} (h : ofNamed d pairs = .ok read) :
    ∀ p ∈ read, p.2.Orderly := by
  cases pairs with
  | nil =>
    cases h
    exact List.forall_mem_nil _
  | cons pair rest =>
    simp only [ofNamed, Outcome.bind_eq_ok, Outcome.pure_eq_ok] at h
    obtain ⟨name, -, s, hs, more, hmore, rfl⟩ := h
    exact List.forall_mem_cons.mpr ⟨orderly_of_ofValue hs, orderly_of_ofNamed hmore⟩
termination_by structural pairs

theorem orderly_of_ofList {d : Dialect} {v : Value} {members : List Schema}
    (h : ofList d v = .ok members) : ∀ s ∈ members, s.Orderly := by
  cases v with
  | seq items => exact orderly_of_ofItems h
  | tagged tag v =>
    cases v with
    | seq items => exact orderly_of_ofItems h
    | _ => simp [eq_nil_of_blank h]
  | _ => simp [eq_nil_of_blank h]
termination_by structural v

theorem orderly_of_ofItems {d : Dialect} {items : List Value} {members : List Schema}
    (h : ofItems d items = .ok members) : ∀ s ∈ members, s.Orderly := by
  cases items with
  | nil =>
    cases h
    exact List.forall_mem_nil _
  | cons v rest =>
    simp only [ofItems, Outcome.bind_eq_ok, Outcome.pure_eq_ok] at h
    obtain ⟨s, hs, more, hmore, rfl⟩ := h
    exact List.forall_mem_cons.mpr ⟨orderly_of_ofValue hs, orderly_of_ofItems hmore⟩
termination_by structural items

theorem orderly_of_ofExtra {d : Dialect} {v : Value} {additional : Option (Extra Schema)}
    (h : ofExtra d v = .ok additional) : ∀ s ∈ extraPart? additional, s.Orderly := by
  cases v with
  | map pairs =>
    rw [ofExtra] at h
    split at h
    · cases h
    split at h
    · next s hs =>
      cases h
      rintro _ ⟨⟩
      exact orderly_of_ofPairs Draft.orderly_start hs
    · cases h
  | null =>
    cases h
    exact fun _ hm => absurd hm (Option.not_mem_none _)
  | bool b =>
    cases h
    exact fun _ hm => absurd hm (Option.not_mem_none _)
  | _ => cases h
termination_by structural v

end

end Schema

end ResourceModels
