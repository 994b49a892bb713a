import ResourceModels.Overlay
import ResourceModels.Proofs.FileStore.Invariant
import ResourceModels.Proofs.FileTree

/-!
# Overlays are trees

An overlay over a tree and the tree itself give the same answers to the same changes and cannot be
told apart after any of them. The base of an overlay stays as it is.
-/

namespace ResourceModels.Overlay

open FileStore (put drop paths SameFiles Change apply trace)

variable {o : Overlay} {t : FileTree}

theorem lookup?_eq (o : Overlay) (path : String) :
    FileStore.lookup? o path = (FileStore.lookup? o.upper path).or
      (if path ∈ o.removed then none else FileStore.lookup? o.base path) := by
  change o.lookup? path = _
  unfold lookup?
  cases FileStore.lookup? o.upper path <;> rfl

theorem lookup?_put (o : Overlay) (key path : String) (e : Entry) :
    FileStore.lookup? (put o key e) path =
      if key = path then some e else FileStore.lookup? o path := by
  rw [lookup?_eq, lookup?_eq]
  change (FileStore.lookup? (put o.upper key e) path).or
    (if path ∈ o.removed.filter (· ≠ key) then none else FileStore.lookup? o.base path) = _
  rw [FileTree.lookup?_put]
  by_cases h : key = path
  · simp [h]
  · simp [h, Ne.symm h]

theorem lookup?_drop (o : Overlay) (key path : String) :
    FileStore.lookup? (drop o key) path =
      if key = path then none else FileStore.lookup? o path := by
  rw [lookup?_eq, lookup?_eq]
  change (FileStore.lookup? (drop o.upper key) path).or
    (if path ∈ if (FileStore.lookup? o.base key).isSome then Dict.insertKey o.removed key
      else o.removed then none else FileStore.lookup? o.base path) = _
  rw [FileTree.lookup?_drop]
  by_cases h : key = path
  · subst h
    simp only [if_true, Option.none_or]
    cases hb : FileStore.lookup? o.base key with
    | none => simp
    | some e => simp [Dict.mem_insertKey]
  · simp only [if_neg h]
    have hremoved : (path ∈ if (FileStore.lookup? o.base key).isSome then
        Dict.insertKey o.removed key else o.removed) ↔ path ∈ o.removed := by
      split
      · simp [Dict.mem_insertKey, Ne.symm h]
      · rfl
    simp only [hremoved]

theorem mem_paths (o : Overlay) (path : String) :
    path ∈ paths o ↔ (FileStore.lookup? o path).isSome := by
  change path ∈ Dict.sortKeys ((paths o.base).filter (· ∉ o.removed) ++ paths o.upper) ↔ _
  rw [Dict.mem_sortKeys, List.mem_append, List.mem_filter, FileTree.mem_paths, FileTree.mem_paths,
    lookup?_eq, Option.isSome_or]
  by_cases h : path ∈ o.removed
  · simp [h]
  · simp [h, or_comm]

instance : FileStore.Lawful Overlay where
  lookup?_put := lookup?_put
  lookup?_drop := lookup?_drop
  mem_paths := mem_paths
  paths_pairwise _ := Dict.pairwise_sortKeys _
  hasBelow_eq _ _ _ := rfl
  size_eq _ := rfl

theorem sameFiles_ofBase (base : FileTree) : SameFiles (ofBase base) base := by
  intro path
  rw [lookup?_eq]
  rfl

def seen (o : Overlay) : List (String × Entry) :=
  (paths o).filterMap fun path => (o.lookup? path).map fun e => (path, e)

theorem sorted_seen (o : Overlay) : Dict.Sorted o.seen := by
  refine List.pairwise_filterMap.mpr ((Dict.pairwise_sortKeys _).imp ?_)
  intro a b hab x hx y hy
  obtain ⟨_, _, rfl⟩ := Option.map_eq_some_iff.mp hx
  obtain ⟨_, _, rfl⟩ := Option.map_eq_some_iff.mp hy
  exact hab

theorem mem_seen {path : String} {e : Entry} :
    (path, e) ∈ o.seen ↔ FileStore.lookup? o path = some e := by
  simp only [seen, List.mem_filterMap, Option.map_eq_some_iff, Prod.mk.injEq]
  constructor
  · rintro ⟨_, _, _, h, rfl, rfl⟩
    exact h
  · intro h
    exact ⟨path, (mem_paths o path).mpr (by simp [h]), e, h, rfl, rfl⟩

theorem lookup?_flatten (o : Overlay) (path : String) :
    FileStore.lookup? o.flatten path = FileStore.lookup? o path := by
  change Dict.get? (Dict.ofList o.seen) path = _
  cases h : FileStore.lookup? o path with
  | some e => exact Dict.get?_ofList_of_mem (sorted_seen o).keys_nodup (mem_seen.mpr h)
  | none =>
    rw [Dict.get?_eq_none_iff, Dict.mem_keys_ofList]
    intro hkey
    obtain ⟨⟨key, e⟩, hmem, rfl⟩ := List.mem_map.mp hkey
    rw [mem_seen.mp hmem] at h
    cases h

theorem flatten_eq_of_sameFiles (h : SameFiles o t) : o.flatten = t := by
  refine FileTree.ext_lookup? fun path => ?_
  rw [lookup?_flatten, h]

/-- An overlay and a tree that nothing tells apart, the overlay being one over `base`. -/
structure Mirrors (base : FileTree) (o : Overlay) (t : FileTree) : Prop where
  agree : FileStore.Agree o t
  flatten : o.flatten = t
  base : o.base = base

theorem mirrors_of_sameFiles (h : SameFiles o t) : Mirrors o.base o t :=
  ⟨FileStore.agree_of_sameFiles h, flatten_eq_of_sameFiles h, rfl⟩

theorem trace_base (o : Overlay) (changes : List Change) :
    ∀ x ∈ trace o changes, x.1.base = o.base :=
  FileStore.trace_keeps (P := fun o' : Overlay => o'.base = o.base) (Q := False)
    (fun _ _ _ _ h => h) (fun _ _ h => h) False.elim rfl

/-- Whatever changes are made to an overlay and to its base as a tree, the answer to each is the
same and after each the two mirror each other. -/
theorem trace_mirrors (base : FileTree) (changes : List Change) :
    Mirrors base (ofBase base) base ∧
      List.Forall₂ (fun x y => x.2 = y.2 ∧ Mirrors base x.1 y.1)
        (trace (ofBase base) changes) (trace base changes) := by
  have hsame := sameFiles_ofBase base
  refine ⟨mirrors_of_sameFiles hsame, ?_⟩
  have hbase := trace_base (ofBase base) changes
  have hall := (List.forall₂_and_left _ _).mpr
    ⟨hbase, FileStore.trace_congr hsame changes⟩
  refine hall.imp ?_
  rintro x y ⟨hx, hanswer, hfiles⟩
  have hmirrors := mirrors_of_sameFiles hfiles
  rw [hx] at hmirrors
  exact ⟨hanswer, hmirrors⟩

end ResourceModels.Overlay
