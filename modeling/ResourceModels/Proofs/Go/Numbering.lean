import Mathlib.Data.List.Forall2
import Mathlib.Data.List.Nodup
import Mathlib.Data.List.Perm.Subperm
import Mathlib.Data.Set.Finite.Basic
import ResourceModels.Go.Emission
import ResourceModels.Go.Preparation
import ResourceModels.Proofs.Dict
import ResourceModels.Proofs.Text

/-!
# Numbered names

A name that is taken gives way to the first of its numbered forms that is free. No two forms are
equal and none is the name itself, so among as many forms as there are taken names one is free: the
search has no bound of its own, and it ends for every finite set of taken names.
-/

namespace ResourceModels.Go

theorem append_toString_inj {base : String} {m n : Nat}
    (h : base ++ toString m = base ++ toString n) : m = n :=
  Text.toString_nat_injective ((String.append_right_inj base).mp h)

theorem append_toString_ne (base : String) (n : Nat) : base ++ toString n ≠ base := by
  intro h
  have hlength := congrArg String.length h
  have hdigits : (toString n).length ≠ 0 := by
    rw [Nat.toString_eq_repr, ← String.length_toList, Nat.toList_repr, ne_eq,
      List.length_eq_zero_iff]
    exact Nat.toDigits_ne_nil
  rw [String.length_append] at hlength
  omega

theorem numbered_nodup (base : String) (count : Nat) : (base :: numbered base count).Nodup := by
  refine List.nodup_cons.mpr ⟨?_, List.Nodup.map ?_ List.nodup_range⟩
  · intro h
    obtain ⟨n, -, hn⟩ := List.mem_map.mp h
    exact append_toString_ne base _ hn
  · intro m n h
    have hmn := append_toString_inj h
    omega

section

variable {taken : List String} {base : String}

theorem exists_free_numbered (h : base ∈ taken) :
    ∃ n < taken.length, base ++ toString (n + 2) ∉ taken := by
  by_contra! hnone
  have hsub : base :: numbered base taken.length ⊆ taken := by
    refine List.cons_subset.mpr ⟨h, fun name hname => ?_⟩
    obtain ⟨n, hn, rfl⟩ := List.mem_map.mp hname
    exact hnone n (List.mem_range.mp hn)
  -- distinct names that are all taken are no more than the taken ones
  have hlength := ((numbered_nodup base taken.length).subperm hsub).length_le
  simp only [numbered, List.length_cons, List.length_map, List.length_range] at hlength
  omega

theorem unique_of_notMem (h : base ∉ taken) : unique taken base = base := if_pos h

theorem unique_of_mem (h : base ∈ taken) :
    ∃ n < taken.length, unique taken base = base ++ toString (n + 2) ∧
      base ++ toString (n + 2) ∉ taken ∧ ∀ m < n, base ++ toString (m + 2) ∈ taken := by
  obtain ⟨free, hfree, hnot⟩ := exists_free_numbered h
  let isFree (n : Nat) : Bool := base ++ toString (n + 2) ∉ taken
  have hfind : unique taken base = (((List.range (taken.length + 1)).find? isFree).map
      fun n => base ++ toString (n + 2)).getD base := by
    rw [unique, if_neg (not_not_intro h), numbered, List.find?_map]
    rfl
  cases hfirst : (List.range (taken.length + 1)).find? isFree with
  | none =>
    have hmem := List.find?_eq_none.mp hfirst free (List.mem_range.mpr (by omega))
    exact absurd (by simpa [isFree] using hmem) hnot
  | some n =>
    obtain ⟨hn, -, hbefore⟩ := List.find?_range_eq_some.mp hfirst
    have hbefore' : ∀ m < n, base ++ toString (m + 2) ∈ taken := fun m hm => by
      simpa [isFree] using hbefore m hm
    refine ⟨n, ?_, by rw [hfind, hfirst]; rfl, by simpa [isFree] using hn, hbefore'⟩
    exact lt_of_le_of_lt (not_lt.mp fun hlt => hnot (hbefore' free hlt)) hfree

/-- A name is left as it is, or it is one of the numbered forms. -/
theorem unique_cases (taken : List String) (base : String) :
    unique taken base = base ∧ base ∉ taken ∨
      ∃ n, unique taken base = base ++ toString (n + 2) ∧ unique taken base ∉ taken := by
  by_cases h : base ∈ taken
  · obtain ⟨n, -, hn, hfree, -⟩ := unique_of_mem h
    exact .inr ⟨n, hn, hn ▸ hfree⟩
  · exact .inl ⟨unique_of_notMem h, h⟩

theorem unique_not_mem (taken : List String) (base : String) : unique taken base ∉ taken := by
  rcases unique_cases taken base with ⟨h, hb⟩ | ⟨n, _, h⟩
  · simpa [h] using hb
  · exact h

end

/-! ## The search for a free name -/

/-- The search among the numbered forms of a name, from a number on: it goes on while it meets a
name that is taken, and gives the first one that is not. -/
inductive Search (taken : String → Prop) (base : String) : Nat → String → Prop
  | free {n : Nat} (h : ¬taken (base ++ toString n)) : Search taken base n (base ++ toString n)
  | next {n : Nat} {name : String} (h : taken (base ++ toString n))
      (later : Search taken base (n + 1) name) : Search taken base n name

/-- A base that is taken gives way to what the search from 2 on ends with. -/
inductive Chosen (taken : String → Prop) (base : String) : String → Prop
  | own (h : ¬taken base) : Chosen taken base base
  | numbered {name : String} (h : taken base) (search : Search taken base 2 name) :
      Chosen taken base name

/-- The base itself if it is free, and else the free form of it with the least number. -/
structure LeastFree (taken : String → Prop) (base name : String) : Prop where
  own : ¬taken base → name = base
  numbered : taken base → ∃ n, 2 ≤ n ∧ name = base ++ toString n ∧ ¬taken name ∧
    ∀ m, 2 ≤ m → m < n → taken (base ++ toString m)

section

variable {taken : String → Prop} {base name : String} {n : Nat}

theorem search_iff : Search taken base n name ↔ ∃ k, n ≤ k ∧ name = base ++ toString k ∧
    ¬taken name ∧ ∀ m, n ≤ m → m < k → taken (base ++ toString m) := by
  constructor
  · intro h
    induction h with
    | @free n h => exact ⟨n, le_rfl, rfl, h, fun m hlow hhigh => by omega⟩
    | @next n name h later ih =>
      obtain ⟨k, hk, hname, hfree, hbefore⟩ := ih
      refine ⟨k, by omega, hname, hfree, fun m hlow hhigh => ?_⟩
      rcases Nat.eq_or_lt_of_le hlow with rfl | hlow
      · exact h
      · exact hbefore m hlow hhigh
  · rintro ⟨k, hk, rfl, hfree, hbefore⟩
    obtain ⟨steps, rfl⟩ := Nat.exists_eq_add_of_le hk
    induction steps generalizing n with
    | zero => exact .free hfree
    | succ steps ih =>
      refine .next (hbefore n le_rfl (by omega)) ?_
      rw [show n + (steps + 1) = n + 1 + steps by omega] at hfree hbefore ⊢
      exact ih (by omega) hfree fun m hlow => hbefore m (by omega)

theorem chosen_iff_leastFree : Chosen taken base name ↔ LeastFree taken base name := by
  constructor
  · intro h
    cases h with
    | own h => exact ⟨fun _ => rfl, fun htaken => absurd htaken h⟩
    | numbered h search => exact ⟨fun hfree => absurd h hfree, fun _ => search_iff.mp search⟩
  · intro h
    by_cases htaken : taken base
    · exact .numbered htaken (search_iff.mpr (h.numbered htaken))
    · rw [h.own htaken]
      exact .own htaken

theorem LeastFree.eq {other : String} (h : LeastFree taken base name)
    (h' : LeastFree taken base other) : name = other := by
  by_cases htaken : taken base
  · obtain ⟨k, hk, rfl, hfree, hbefore⟩ := h.numbered htaken
    obtain ⟨k', hk', rfl, hfree', hbefore'⟩ := h'.numbered htaken
    have hle : k ≤ k' := not_lt.mp fun hlt => hfree' (hbefore k' hk' hlt)
    have hge : k' ≤ k := not_lt.mp fun hlt => hfree (hbefore' k hk hlt)
    rw [le_antisymm hle hge]
  · rw [h.own htaken, h'.own htaken]

end

theorem leastFree_unique (taken : List String) (base : String) :
    LeastFree (· ∈ taken) base (unique taken base) := by
  refine ⟨unique_of_notMem, fun h => ?_⟩
  obtain ⟨n, -, hn, hfree, hbefore⟩ := unique_of_mem h
  refine ⟨n + 2, by omega, hn, hn ▸ hfree, fun m hlow hhigh => ?_⟩
  obtain ⟨m, rfl⟩ := Nat.exists_eq_add_of_le' hlow
  exact hbefore m (by omega)

theorem chosen_iff_eq_unique {taken : List String} {base name : String} :
    Chosen (· ∈ taken) base name ↔ name = unique taken base := by
  rw [chosen_iff_leastFree]
  refine ⟨fun h => h.eq (leastFree_unique taken base), ?_⟩
  rintro rfl
  exact leastFree_unique taken base

/-- Which name is given depends on what is taken only. -/
theorem unique_congr {taken taken' : List String} (h : ∀ name, name ∈ taken ↔ name ∈ taken')
    (base : String) : unique taken base = unique taken' base := by
  have hsame : (· ∈ taken) = (· ∈ taken') := funext fun name => propext (h name)
  exact chosen_iff_eq_unique.mp (hsame ▸ chosen_iff_eq_unique.mpr rfl)

/-! ## Names given in turn -/

/-- Names for some bases in turn, each of which is taken from then on. -/
def namesInTurn (taken : List String) : List String → List String
  | [] => []
  | base :: rest => unique taken base :: namesInTurn (unique taken base :: taken) rest

section

variable {taken : List String}

theorem notMem_of_mem_namesInTurn {bases : List String} {name : String}
    (h : name ∈ namesInTurn taken bases) : name ∉ taken := by
  induction bases generalizing taken with
  | nil => cases h
  | cons base rest ih =>
    rcases List.mem_cons.mp h with rfl | h
    · exact unique_not_mem taken base
    · exact fun hmem => ih h (List.mem_cons_of_mem _ hmem)

theorem namesInTurn_nodup (taken bases : List String) : (namesInTurn taken bases).Nodup := by
  induction bases generalizing taken with
  | nil => exact List.nodup_nil
  | cons base rest ih =>
    exact List.nodup_cons.mpr ⟨fun h => notMem_of_mem_namesInTurn h List.mem_cons_self, ih _⟩

/-- Every base is a name in the end. -/
theorem mem_or_mem_namesInTurn {bases : List String} {base : String} (h : base ∈ bases) :
    base ∈ taken ∨ base ∈ namesInTurn taken bases := by
  induction bases generalizing taken with
  | nil => cases h
  | cons first rest ih =>
    rw [namesInTurn, List.mem_cons]
    rcases List.mem_cons.mp h with rfl | h
    · by_cases hbase : base ∈ taken
      · exact .inl hbase
      · exact .inr (.inl (unique_of_notMem hbase).symm)
    · rcases ih h with hmem | hmem
      · exact (List.mem_cons.mp hmem).elim (fun heq => .inr (.inl heq)) .inl
      · exact .inr (.inr hmem)

theorem namesInTurn_congr {taken' : List String} (h : ∀ name, name ∈ taken ↔ name ∈ taken')
    (bases : List String) : namesInTurn taken bases = namesInTurn taken' bases := by
  induction bases generalizing taken taken' with
  | nil => rfl
  | cons base rest ih =>
    rw [namesInTurn, namesInTurn, unique_congr h base]
    exact congrArg _ (ih fun name => by rw [List.mem_cons, List.mem_cons, h name])

end

end ResourceModels.Go

/-!
## Names of components

Components are named in turn, each by the name it wants or by a numbered form of it. So every
component has a name, no two have the same one, and every name that is wanted is given.
-/

namespace ResourceModels.Go.Emission

theorem sorted_componentNames {names : Dict String} (h : Dict.Sorted names)
    (schemas : List (String × Schema)) : Dict.Sorted (componentNames names schemas) := by
  induction schemas generalizing names with
  | nil => exact h
  | cons c rest ih => exact ih (h.insert _ _)

theorem mem_keys_componentNames {names : Dict String} {schemas : List (String × Schema)}
    {component : String} :
    component ∈ Dict.keys (componentNames names schemas) ↔
      component ∈ Dict.keys names ∨ component ∈ Dict.keys schemas := by
  induction schemas generalizing names with
  | nil => simp [componentNames, Dict.keys]
  | cons c rest ih =>
    rw [componentNames, ih, Dict.mem_keys_insert]
    simp only [Dict.keys, List.map_cons, List.mem_cons]
    tauto

section

variable {names : Dict String} {c : String × Schema} {rest : List (String × Schema)}

theorem notMem_keys_insert (hkeys : (Dict.keys (c :: rest)).Nodup)
    (hfresh : ∀ key ∈ Dict.keys (c :: rest), key ∉ Dict.keys names) (name : String) :
    ∀ key ∈ Dict.keys rest, key ∉ Dict.keys (Dict.insert names c.1 name) := by
  intro key hkey
  rw [Dict.mem_keys_insert, not_or]
  refine ⟨?_, hfresh key (List.mem_cons_of_mem _ hkey)⟩
  rintro rfl
  exact (List.nodup_cons.mp hkeys).1 hkey

end

/-- The names of components are the names that they want, given in turn. -/
theorem values_componentNames_perm {names : Dict String} {schemas : List (String × Schema)}
    (hkeys : (Dict.keys schemas).Nodup)
    (hfresh : ∀ key ∈ Dict.keys schemas, key ∉ Dict.keys names) :
    (Dict.values (componentNames names schemas)).Perm
      (Dict.values names ++ namesInTurn (Dict.values names)
        (schemas.map fun c => wantedName c.2.keywords (shortName c.1))) := by
  induction schemas generalizing names with
  | nil => simp [componentNames, namesInTurn]
  | cons c rest ih =>
    set name := unique (Dict.values names) (wantedName c.2.keywords (shortName c.1)) with hname
    have hinsert : (Dict.values (Dict.insert names c.1 name)).Perm (name :: Dict.values names) :=
      (Dict.insert_perm (hfresh c.1 List.mem_cons_self) name).map _
    have hrest := ih (List.nodup_cons.mp hkeys).2 (notMem_keys_insert hkeys hfresh name)
    rw [namesInTurn_congr (fun other => hinsert.mem_iff)] at hrest
    rw [componentNames, List.map_cons, namesInTurn, ← hname]
    exact hrest.trans ((hinsert.append_right _).trans List.perm_middle.symm)

/-- The name that a component wants is the name of some component. -/
theorem wantedName_mem_componentNames (names : Dict String) {schemas : List (String × Schema)}
    (hkeys : (Dict.keys schemas).Nodup) (hfresh : ∀ key ∈ Dict.keys schemas, key ∉ Dict.keys names)
    {c : String × Schema} (hc : c ∈ schemas) :
    wantedName c.2.keywords (shortName c.1) ∈ Dict.values (componentNames names schemas) := by
  rw [(values_componentNames_perm hkeys hfresh).mem_iff, List.mem_append]
  exact mem_or_mem_namesInTurn (List.mem_map_of_mem hc)

theorem nodup_values_componentNames {names : Dict String} {schemas : List (String × Schema)}
    (hkeys : (Dict.keys schemas).Nodup) (hfresh : ∀ key ∈ Dict.keys schemas, key ∉ Dict.keys names)
    (hvalues : (Dict.values names).Nodup) :
    (Dict.values (componentNames names schemas)).Nodup := by
  rw [(values_componentNames_perm hkeys hfresh).nodup_iff]
  exact hvalues.append (namesInTurn_nodup _ _) fun _ htaken hname =>
    notMem_of_mem_namesInTurn hname htaken

theorem exists_get?_componentNames {schemas : List (String × Schema)} {component : String}
    (h : component ∈ Dict.keys schemas) :
    ∃ name, (componentNames [] schemas).get? component = some name := by
  have hkey := mem_keys_componentNames.mpr (.inr h : component ∈ Dict.keys [] ∨ _)
  exact Option.isSome_iff_exists.mp (Dict.isSome_get?_iff.mpr hkey)

/-- A component goes by the name it wants or by a numbered form of it. -/
theorem exists_unique_of_get?_componentNames {names : Dict String}
    {schemas : List (String × Schema)} {component name : String}
    (h : (componentNames names schemas).get? component = some name) :
    names.get? component = some name ∨ ∃ s taken, (component, s) ∈ schemas ∧
      name = unique taken (wantedName s.keywords (shortName component)) := by
  induction schemas generalizing names with
  | nil => exact .inl h
  | cons c rest ih =>
    rcases ih h with hname | ⟨s, taken, hs, hname⟩
    · rw [Dict.get?_insert] at hname
      split at hname
      · next hkey =>
        subst hkey
        exact .inr ⟨c.2, _, List.mem_cons_self, (Option.some.inj hname).symm⟩
      · exact .inl hname
    · exact .inr ⟨s, taken, List.mem_cons_of_mem _ hs, hname⟩

/-- Components with the same name are the same. -/
theorem get?_componentNames_inj {schemas : List (String × Schema)}
    (hkeys : (Dict.keys schemas).Nodup) {component other name : String}
    (h : (componentNames [] schemas).get? component = some name)
    (h' : (componentNames [] schemas).get? other = some name) : component = other := by
  have hnodup : (Dict.values (componentNames [] schemas)).Nodup :=
    nodup_values_componentNames hkeys (by simp [Dict.keys]) (by simp [Dict.values])
  have hpairs := List.inj_on_of_nodup_map hnodup (Dict.mem_of_get? h) (Dict.mem_of_get? h') rfl
  exact congrArg Prod.fst hpairs

end ResourceModels.Go.Emission
