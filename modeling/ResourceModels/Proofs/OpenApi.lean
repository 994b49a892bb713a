import ResourceModels.OpenApi
import ResourceModels.Proofs.Dict
import ResourceModels.Proofs.Schema.Nodes
import ResourceModels.Proofs.Text

/-!
# Renaming components at once

Components are renamed one after another, and each step redirects the references in all components.
If no new name is that of another component and no two components get one name, this is the same as
giving all components their new names at once, each with its references redirected once.
-/

namespace ResourceModels.OpenApi

/-- The name of a component after those with the given names are renamed. -/
def newName (names : List String) (rename : String → String) (name : String) : String :=
  if name ∈ names then rename name else name

/-- Lets a reference to a renamed component follow it; any other reference stays. -/
def follow (names : List String) (rename : String → String) (k : Keywords) : Keywords :=
  match k.reference.bind Schema.refTarget? with
  | some target =>
    if target ∈ names then { k with reference := some (Schema.componentRef (rename target)) } else k
  | none => k

/-- A component with its new name and with all references in it followed. -/
def renamed (names : List String) (rename : String → String) (c : String × Schema) :
    String × Schema :=
  (newName names rename c.1, Schema.mapKeywords (follow names rename) c.2)

/-- Gives the components of the given names their new names, all at once. -/
def renameAll (doc : OpenApi) (names : List String) (rename : String → String) : OpenApi :=
  { doc with schemas := Dict.ofList (doc.schemas.map (renamed names rename)) }

variable {rename : String → String} {name : String} {names : List String}

theorem refTarget?_eq_some {reference target : String} :
    Schema.refTarget? reference = some target ↔ reference = Schema.componentRef target :=
  Text.after?_eq_some

theorem bind_refTarget?_componentRef (target : String) :
    (some (Schema.componentRef target)).bind Schema.refTarget? = some target :=
  refTarget?_eq_some.mpr rfl

theorem renamed_nil (rename : String → String) (c : String × Schema) : renamed [] rename c = c := by
  have hfollow : follow [] rename = fun k => k := by
    funext k
    unfold follow
    split <;> simp
  rw [renamed, hfollow, Schema.mapKeywords_id, newName, if_neg List.not_mem_nil]

/-- Redirecting the references to one component and then following the others is following all. -/
theorem follow_redirect (hname : name ∉ names) (hnew : rename name ∉ names) (k : Keywords) :
    follow names rename (redirect name (rename name) k) = follow (name :: names) rename k := by
  unfold redirect
  split
  · next href =>
    rw [follow, follow, href]
    simp only [bind_refTarget?_componentRef, if_neg hnew, if_pos List.mem_cons_self]
  · next href =>
    unfold follow
    split
    · next target htarget =>
      obtain ⟨reference, hk, hreference⟩ := Option.bind_eq_some_iff.mp htarget
      have hne : target ≠ name := by
        rintro rfl
        rw [hk, refTarget?_eq_some.mp hreference] at href
        exact href rfl
      simp only [List.mem_cons, hne, false_or]
    · rfl

theorem newName_cons_of_ne {other : String} (h : other ≠ name) :
    newName (name :: names) rename other = newName names rename other := by
  simp only [newName, List.mem_cons, h, false_or]

variable {doc : OpenApi} {s : Schema}

theorem sorted_renameComponent (h : Dict.Sorted doc.schemas) (source target : String) :
    Dict.Sorted (doc.renameComponent source target).schemas := by
  refine Dict.Sorted.mapValues ?_ _
  dsimp only
  split
  · exact (h.erase source).insert target _
  · exact h

/-- The components after one of them is renamed. -/
theorem schemas_renameComponent_perm (h : Dict.Sorted doc.schemas) {target : String}
    (hs : (name, s) ∈ doc.schemas) (htarget : target = name ∨ target ∉ doc.schemas.keys) :
    (doc.renameComponent name target).schemas.Perm
      (((target, s) :: Dict.erase doc.schemas name).map fun c =>
        (c.1, Schema.mapKeywords (redirect name target) c.2)) := by
  have hfree : target ∉ Dict.keys (Dict.erase doc.schemas name) := by
    intro hmem
    rw [← Dict.isSome_get?_iff, Dict.get?_erase] at hmem
    split at hmem
    · cases hmem
    · next hne =>
      rcases htarget with rfl | hfresh
      · exact hne rfl
      · exact hfresh (Dict.isSome_get?_iff.mp hmem)
  have hget : doc.schemas.get? name = some s := h.get?_of_mem hs
  simp only [renameComponent, OpenApi.mapKeywords, hget, Dict.mapValues]
  exact (Dict.insert_perm hfree s).map _

theorem perm_cons_erase (h : Dict.Sorted doc.schemas) (hs : (name, s) ∈ doc.schemas) :
    doc.schemas.Perm ((name, s) :: Dict.erase doc.schemas name) := by
  have hinsert : Dict.insert (Dict.erase doc.schemas name) name s = doc.schemas := by
    refine ((h.erase name).insert name s).ext h fun key => ?_
    rw [Dict.get?_insert, Dict.get?_erase]
    by_cases hkey : name = key
    · subst hkey
      rw [if_pos rfl, h.get?_of_mem hs]
    · rw [if_neg hkey, if_neg hkey]
  have hfree : name ∉ Dict.keys (Dict.erase doc.schemas name) := by
    rw [← Dict.isSome_get?_iff, Dict.get?_erase, if_pos rfl]
    simp
  have hperm := Dict.insert_perm hfree s
  rwa [hinsert] at hperm

/-- New names that can be given in any order. -/
structure Fresh (doc : OpenApi) (names : List String) (rename : String → String) : Prop where
  nodup : names.Nodup
  present : ∀ name ∈ names, name ∈ doc.schemas.keys
  fresh : ∀ name ∈ names, rename name = name ∨ rename name ∉ doc.schemas.keys
  apart : ∀ name ∈ names, ∀ other ∈ names, rename name = rename other → name = other

theorem mem_keys_renameComponent (h : Dict.Sorted doc.schemas) {target : String}
    (hs : (name, s) ∈ doc.schemas) (htarget : target = name ∨ target ∉ doc.schemas.keys)
    {other : String} : other ∈ (doc.renameComponent name target).schemas.keys ↔
      other = target ∨ (name ≠ other ∧ other ∈ doc.schemas.keys) := by
  have hperm := (schemas_renameComponent_perm h hs htarget).map (·.1)
  rw [Dict.keys, hperm.mem_iff, List.map_map, List.map_cons, List.mem_cons]
  refine or_congr_right ?_
  change other ∈ Dict.keys (Dict.erase doc.schemas name) ↔ _
  rw [← Dict.isSome_get?_iff, ← Dict.isSome_get?_iff, Dict.get?_erase]
  split
  · next heq => simp [heq]
  · next hne => simp [hne]

theorem Fresh.exists_mem (h : Fresh doc (name :: names) rename) : ∃ s, (name, s) ∈ doc.schemas := by
  have hget := Dict.isSome_get?_iff.mpr (h.present name List.mem_cons_self)
  obtain ⟨s, hs⟩ := Option.isSome_iff_exists.mp hget
  exact ⟨s, Dict.mem_of_get? hs⟩

/-- After a step the rest of the names can still be given. -/
theorem Fresh.tail (hdoc : Dict.Sorted doc.schemas) (h : Fresh doc (name :: names) rename) :
    Fresh (doc.renameComponent name (rename name)) names rename := by
  obtain ⟨hfree, hnodup⟩ := List.nodup_cons.mp h.nodup
  obtain ⟨s, hs⟩ := h.exists_mem
  have hkeys {other : String} : other ∈ (doc.renameComponent name (rename name)).schemas.keys ↔
      other = rename name ∨ (name ≠ other ∧ other ∈ doc.schemas.keys) :=
    mem_keys_renameComponent hdoc hs (h.fresh _ List.mem_cons_self)
  have hne : ∀ other ∈ names, name ≠ other := fun other hother heq => hfree (heq ▸ hother)
  refine ⟨hnodup, fun other hother => ?_, fun other hother => ?_, fun first hfirst second hsecond =>
    h.apart first (List.mem_cons_of_mem _ hfirst) second (List.mem_cons_of_mem _ hsecond)⟩
  · exact hkeys.mpr (.inr ⟨hne other hother, h.present other (List.mem_cons_of_mem _ hother)⟩)
  · refine (h.fresh other (List.mem_cons_of_mem _ hother)).imp_right fun hfresh hmem => ?_
    rcases hkeys.mp hmem with hsame | ⟨_, hmem⟩
    · exact hne other hother (h.apart name List.mem_cons_self other
        (List.mem_cons_of_mem _ hother) hsame.symm)
    · exact hfresh hmem

/-- Renaming a component and then the others at once is renaming all of them at once. -/
theorem map_renamed_renameComponent (hdoc : Dict.Sorted doc.schemas)
    (h : Fresh doc (name :: names) rename) :
    ((doc.renameComponent name (rename name)).schemas.map (renamed names rename)).Perm
      (doc.schemas.map (renamed (name :: names) rename)) := by
  obtain ⟨hfree, _⟩ := List.nodup_cons.mp h.nodup
  obtain ⟨s, hs⟩ := h.exists_mem
  have hnew : rename name ∉ names := by
    intro hmem
    rcases h.fresh name List.mem_cons_self with heq | hfresh
    · exact hfree (heq ▸ hmem)
    · exact hfresh (h.present _ (List.mem_cons_of_mem _ hmem))
  have hfollow : ∀ s : Schema, Schema.mapKeywords (follow names rename)
      (Schema.mapKeywords (redirect name (rename name)) s) =
        Schema.mapKeywords (follow (name :: names) rename) s := by
    intro s
    refine (Schema.mapNodes_mapKeywords _ s).trans ?_
    simp only [follow_redirect hfree hnew, Schema.mapKeywords]
  have hstep := schemas_renameComponent_perm hdoc hs (h.fresh _ List.mem_cons_self)
  refine (hstep.map _).trans (.trans ?_ ((perm_cons_erase hdoc hs).map _).symm)
  rw [List.map_map, List.map_cons, List.map_cons]
  have hfirst : renamed names rename (rename name, Schema.mapKeywords (redirect name (rename name)) s)
      = renamed (name :: names) rename (name, s) := by
    simp only [renamed, newName, if_neg hnew, if_pos List.mem_cons_self, hfollow]
  have hrest : ∀ c ∈ Dict.erase doc.schemas name,
      renamed names rename (c.1, Schema.mapKeywords (redirect name (rename name)) c.2) =
        renamed (name :: names) rename c := by
    intro c hc
    have hne : c.1 ≠ name := by simpa using (List.mem_filter.mp hc).2
    simp only [renamed, newName_cons_of_ne hne, hfollow]
  rw [Function.comp_apply, hfirst]
  refine .cons _ (.of_eq (List.map_congr_left hrest))

/-- One after another, the components get the names that they get at once. -/
theorem schemas_foldl_renameComponent (hdoc : Dict.Sorted doc.schemas)
    (h : Fresh doc names rename) :
    (names.foldl (fun doc name => doc.renameComponent name (rename name)) doc).schemas.Perm
      (doc.schemas.map (renamed names rename)) := by
  induction names generalizing doc with
  | nil =>
    have hsame : ∀ c ∈ doc.schemas, renamed [] rename c = c := fun c _ => renamed_nil rename c
    exact .of_eq ((List.map_congr_left hsame).trans (List.map_id' _)).symm
  | cons name rest ih =>
    exact (ih (sorted_renameComponent hdoc name (rename name)) (h.tail hdoc)).trans
      (map_renamed_renameComponent hdoc h)

theorem mem_keys_renameAll : name ∈ (doc.renameAll names rename).schemas.keys ↔
    ∃ own ∈ doc.schemas.keys, newName names rename own = name := by
  have hkeys : (doc.schemas.map (renamed names rename)).map (·.1) =
      doc.schemas.keys.map (newName names rename) := by
    rw [Dict.keys, List.map_map, List.map_map]
    rfl
  rw [renameAll, Dict.mem_keys_ofList, hkeys, List.mem_map]

theorem foldl_renameComponent_schemas (doc : OpenApi) (names : List String) :
    names.foldl (fun doc name => doc.renameComponent name (rename name)) doc =
      { doc with
        schemas :=
          (names.foldl (fun doc name => doc.renameComponent name (rename name)) doc).schemas } := by
  induction names generalizing doc with
  | nil => rfl
  | cons name rest ih =>
    rw [List.foldl_cons, ih]
    rfl

theorem sorted_foldl_renameComponent (hdoc : Dict.Sorted doc.schemas) (names : List String)
    (rename : String → String) :
    Dict.Sorted (names.foldl (fun doc name =>
      doc.renameComponent name (rename name)) doc).schemas := by
  induction names generalizing doc with
  | nil => exact hdoc
  | cons name rest ih => exact ih (sorted_renameComponent hdoc name (rename name))

/-- Renaming one after another is renaming at once, and no component is lost by it. -/
theorem foldl_renameComponent (hdoc : Dict.Sorted doc.schemas) (h : Fresh doc names rename) :
    names.foldl (fun doc name => doc.renameComponent name (rename name)) doc =
        doc.renameAll names rename ∧
      (doc.renameAll names rename).schemas.Perm (doc.schemas.map (renamed names rename)) := by
  have hperm := schemas_foldl_renameComponent hdoc h
  have hsorted := sorted_foldl_renameComponent hdoc names rename
  have hschemas := hsorted.eq_ofList_of_perm hperm
  refine ⟨?_, ?_⟩
  · rw [foldl_renameComponent_schemas, hschemas, renameAll]
  · rw [renameAll]
    exact hschemas ▸ hperm

end ResourceModels.OpenApi
