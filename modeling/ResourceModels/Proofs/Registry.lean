import ResourceModels.Proofs.FileStore.Invariant
import ResourceModels.Proofs.FileTree
import ResourceModels.Registry

/-!
# Registered models

Models whose files stand at paths in normal form are taken up whole: the registered tree holds them
over the files that it held before.
-/

namespace ResourceModels

open FileStore (lookup? put paths PathsNormal)
open ResourceModels.Path (IsFilePath)

namespace FileTree

theorem lookup?_overwrite (t new : FileTree) (path : String) :
    lookup? (t.overwrite new) path = (lookup? new path).or (lookup? t path) := by
  change (t.entries.insertAll new.entries).get? path = (new.entries.get? path).or _
  rw [Dict.get?_insertAll]
  congr 1
  have hnodup := new.sorted.keys_nodup
  cases hget : new.entries.get? path with
  | none =>
    rw [Option.map_eq_none_iff, List.find?_eq_none]
    intro pair hpair hkey
    refine Dict.get?_eq_none_iff.mp hget ?_
    exact List.mem_map.mpr ⟨pair, List.mem_reverse.mp hpair, by simpa using hkey⟩
  | some e =>
    rw [← Dict.get?_ofList]
    exact Dict.get?_ofList_of_mem hnodup (Dict.mem_of_get? hget)

theorem pathsNormal_empty : PathsNormal (∅ : FileTree) :=
  fun _ h => absurd h List.not_mem_nil

end FileTree

namespace MemoryRegistry

variable {t models : FileTree} {r : MemoryRegistry} {language : Language}

theorem writeAll_of_isFilePath {entries : List (String × Entry)}
    (h : ∀ pair ∈ entries, IsFilePath pair.1) :
    writeAll t entries = (entries.foldl (fun t pair => put t pair.1 pair.2) t, .ok ()) := by
  induction entries generalizing t with
  | nil => rfl
  | cons pair rest ih =>
    obtain ⟨path, e⟩ := pair
    have hwrite : FileStore.writeEntry t path e = .ok (put t path e) := by
      rw [FileStore.writeEntry, Path.normalizeFile_of_isFilePath (h _ List.mem_cons_self)]
      rfl
    simp only [writeAll, hwrite, List.foldl_cons]
    exact ih fun p hp => h p (List.mem_cons_of_mem _ hp)

theorem foldl_put_eq_overwrite (entries : List (String × Entry)) :
    (entries.foldl (fun t pair => put t pair.1 pair.2) t).entries =
      t.entries.insertAll entries := by
  induction entries generalizing t with
  | nil => rfl
  | cons pair rest ih => exact ih

theorem add_of_pathsNormal (h : PathsNormal models) :
    r.add language models =
      (r.set language (((r.models language).getD ∅).overwrite models), .ok ()) := by
  have hentries : ∀ pair ∈ models.entries, IsFilePath pair.1 := fun pair hpair =>
    h pair.1 (List.mem_map_of_mem hpair)
  have htree : models.entries.foldl (fun t pair => put t pair.1 pair.2)
      ((r.models language).getD ∅) = ((r.models language).getD ∅).overwrite models :=
    FileTree.ext (foldl_put_eq_overwrite models.entries)
  simp only [add, writeAll_of_isFilePath hentries, htree]
  rfl

end MemoryRegistry

end ResourceModels
