import ResourceModels.Kcl
import ResourceModels.Proofs.Collect.Staging

/-!
# Definitions before the importer

The importer is run for the files of the work tree whose names end in `.yaml`. Every staged resource
is a file of that tree, and it is passed over exactly if it is a whole `.yml` file of the source,
which keeps its name. The tree has as many files as there are staged resources exactly if their
paths are different.
-/

namespace ResourceModels.Kcl

open FileStore (paths)

/-- Whether the importer is run for a file of the work tree. -/
def IsImported (path : String) : Prop := Text.endsWith ".yaml" path = true

theorem not_endsWith_yaml {s : String} (h : Text.endsWith ".yml" s = true) :
    ¬Text.endsWith ".yaml" s = true := by
  intro h'
  have hshort : ".yml".toList <:+ s.toList := List.isSuffixOf_iff_suffix.mp h
  have hlong : ".yaml".toList <:+ s.toList := List.isSuffixOf_iff_suffix.mp h'
  exact absurd (List.suffix_of_suffix_length_le hshort hlong (by decide)) (by decide)

theorem endsWith_normalizeFile {file path tail : String} (h : Text.endsWith tail file = true)
    (hseparator : tail.toList.any Path.isSeparator = false) (hlength : 2 < tail.length)
    (hpath : Path.normalizeFile file = .ok path) : Text.endsWith tail path = true := by
  have hclean : ∀ c ∈ tail.toList, Path.isSeparator c = false := by
    simpa only [List.any_eq_false, Bool.not_eq_true] using hseparator
  obtain ⟨stem, hstem⟩ := List.isSuffixOf_iff_suffix.mp h
  have hfile : file = String.ofList stem ++ tail := by
    rw [← String.toList_inj, String.toList_append, String.toList_ofList, hstem]
  rw [hfile, Path.normalizeFile_eq_ok] at hpath
  exact Path.endsWith_of_normalize? hclean hlength hpath.1

theorem mem_paths_of_written {staged : List Staged} {t t' : FileTree}
    (h : staged.foldlM (fun t s => FileStore.write t s.path s.contents) t = .ok t')
    (path : String) :
    path ∈ paths t' ↔ path ∈ paths t ∨ ∃ s ∈ staged, Path.normalizeFile s.path = .ok path := by
  induction staged generalizing t with
  | nil => cases h; simp
  | cons s rest ih =>
    simp only [List.foldlM_cons, FileStore.write, FileStore.writeEntry, Outcome.bind_eq_ok,
      Outcome.pure_eq_ok] at h
    obtain ⟨_, ⟨key, hkey, rfl⟩, hrest⟩ := h
    rw [ih hrest, FileTree.mem_paths, FileTree.lookup?_put, FileTree.mem_paths,
      List.exists_mem_cons_iff, hkey]
    by_cases hpath : key = path <;> simp [hpath]

theorem exists_path_of_written {staged : List Staged} {t t' : FileTree}
    (h : staged.foldlM (fun t s => FileStore.write t s.path s.contents) t = .ok t') {s : Staged}
    (hs : s ∈ staged) : ∃ path, Path.normalizeFile s.path = .ok path := by
  induction staged generalizing t with
  | nil => cases hs
  | cons first rest ih =>
    simp only [List.foldlM_cons, FileStore.write, FileStore.writeEntry, Outcome.bind_eq_ok,
      Outcome.pure_eq_ok] at h
    obtain ⟨_, ⟨key, hkey, rfl⟩, hrest⟩ := h
    rcases List.mem_cons.mp hs with rfl | hs
    · exact ⟨key, hkey⟩
    · exact ih hrest hs

theorem entries_of_written {staged : List Staged} {t t' : FileTree}
    (hpaths : ∀ s ∈ staged, Path.IsFilePath s.path)
    (h : staged.foldlM (fun t s => FileStore.write t s.path s.contents) t = .ok t') :
    t'.entries = t.entries.insertAll (staged.map fun s => (s.path, .file s.contents)) := by
  induction staged generalizing t with
  | nil =>
    cases h
    rfl
  | cons s rest ih =>
    have hpath := Path.normalizeFile_of_isFilePath (hpaths s List.mem_cons_self)
    simp only [List.foldlM_cons, FileStore.write, FileStore.writeEntry, hpath] at h
    exact ih (fun s' hs' => hpaths s' (List.mem_cons_of_mem _ hs')) h

section

variable {σ : Type} [FileStore σ] {files : σ} {exclude : List String} {t : FileTree}

theorem stage_ok (h : stage files exclude = .ok (some t)) :
    ∃ staged, Collect.resources files exclude = .ok staged ∧
      staged.foldlM (fun t s => FileStore.write t s.path s.contents) (∅ : FileTree) = .ok t := by
  simp only [stage, Outcome.bind_eq_ok, Outcome.mapError_eq_ok] at h
  obtain ⟨staged, hstaged, h⟩ := h
  refine ⟨staged, hstaged, ?_⟩
  split at h
  · cases h
  · obtain ⟨t', ht', h⟩ := Outcome.bind_eq_ok.mp h
    cases h
    exact Outcome.mapError_eq_ok.mp ht'

/-- A resource that does not keep the path of its file is imported, and one that does is imported if
the file is a `.yaml` file. -/
theorem isImported_iff {sources : List String} {parts : List (List Staged)}
    (h : List.Forall₂ Collect.StagedFrom sources parts)
    (hyaml : ∀ file ∈ sources, Collect.isYaml file = true) {s : Staged} (hs : s ∈ parts.flatten)
    {path : String} (hpath : Path.normalizeFile s.path = .ok path) :
    IsImported path ↔ (s.path = s.source → Text.endsWith ".yaml" s.source = true) := by
  have hlong : ∀ file, Text.endsWith ".yaml" file = true → Path.normalizeFile file = .ok path →
      IsImported path := fun file hfile =>
    endsWith_normalizeFile hfile (by decide) (by decide)
  obtain ⟨hsource, hkept | ⟨tail, ⟨mark, _, rfl⟩, hadded⟩⟩ := Collect.exists_stagedFrom h hs
  · rw [hkept] at hpath
    rcases Bool.or_eq_true_iff.mp (hyaml _ hsource) with hfile | hfile
    · exact iff_of_true (hlong _ hfile hpath) fun _ => hfile
    · have hshort := endsWith_normalizeFile hfile (by decide) (by decide) hpath
      exact iff_of_false (not_endsWith_yaml hshort) fun himp => not_endsWith_yaml hfile (himp hkept)
  · have hfile : Text.endsWith ".yaml" s.path = true := by
      rw [hadded, ← String.append_assoc]
      exact Text.endsWith_append _ _
    refine iff_of_true (hlong _ hfile hpath) fun hkept => ?_
    rw [← hkept]
    exact hfile

/-- The work tree has a file for each staged resource exactly if none is written over another. -/
theorem stage_size_iff (hpaths : FileStore.PathsNormal files) (h : stage files exclude = .ok (some t)) :
    ∃ staged, Collect.resources files exclude = .ok staged ∧
      (FileStore.size t = staged.length ↔ (staged.map (·.path)).Nodup) := by
  obtain ⟨staged, hstaged, hwritten⟩ := stage_ok h
  have hnormal := Collect.isFilePath_of_staged hpaths hstaged
  have hentries := entries_of_written hnormal hwritten
  have hsize : FileStore.size t =
      (Dict.ofList (staged.map fun s => (s.path, Entry.file s.contents))).keys.length := by
    change t.entries.length = _
    rw [hentries, Dict.keys, List.length_map]
    rfl
  refine ⟨staged, hstaged, ?_⟩
  have hcount : staged.length = (staged.map fun s => (s.path, Entry.file s.contents)).length :=
    (List.length_map _).symm
  rw [hsize, hcount, Dict.length_keys_ofList_iff, List.map_map]
  rfl

theorem stage_isImported_iff (h : stage files exclude = .ok (some t)) :
    ∃ staged, Collect.resources files exclude = .ok staged ∧
      ∀ s ∈ staged, ∃ path, Path.normalizeFile s.path = .ok path ∧ path ∈ paths t ∧
        (IsImported path ↔ (s.path = s.source → Text.endsWith ".yaml" s.source = true)) := by
  obtain ⟨staged, hstaged, hwritten⟩ := stage_ok h
  obtain ⟨parts, hparts, rfl⟩ := Collect.resources_parts hstaged
  refine ⟨_, hstaged, fun s hs => ?_⟩
  obtain ⟨path, hpath⟩ := exists_path_of_written hwritten hs
  refine ⟨path, hpath, (mem_paths_of_written hwritten path).mpr (.inr ⟨s, hs, hpath⟩), ?_⟩
  exact isImported_iff hparts (fun _ => Collect.isYaml_of_mem_sources) hs hpath

end

/-- A `.yml` file that holds one resource. -/
def shortNamed : FileTree :=
  .ofEntries
    [("definition.yml", .file (Text.encode ("\x7bkind: CustomResourceDefinition, " ++
      "spec: \x7bgroup: g, names: \x7bkind: K\x7d\x7d\x7d")))]

def stagedFiles : Except KclError (Option FileTree) → Option (List String)
  | .ok (some t) => some (paths t)
  | _ => none

theorem shortNamed_evaluated :
    stagedFiles (stage shortNamed []) = some ["definition.yml"] := by
  decide +kernel

theorem exists_stage_shortNamed :
    ∃ t, stage shortNamed [] = .ok (some t) ∧ paths t = ["definition.yml"] := by
  have h := shortNamed_evaluated
  unfold stagedFiles at h
  split at h
  · next t ht => exact ⟨t, ht, Option.some.inj h⟩
  · cases h

theorem shortNamed_isImported_iff :
    ∃ t staged, stage shortNamed [] = .ok (some t) ∧
      Collect.resources shortNamed [] = .ok staged ∧
        ∀ s ∈ staged, ∃ path, Path.normalizeFile s.path = .ok path ∧ path ∈ paths t ∧
          (IsImported path ↔ (s.path = s.source → Text.endsWith ".yaml" s.source = true)) := by
  obtain ⟨t, ht, _⟩ := exists_stage_shortNamed
  obtain ⟨staged, hstaged, hall⟩ := stage_isImported_iff ht
  exact ⟨t, staged, ht, hstaged, hall⟩

theorem shortNamed_not_isImported :
    ∃ t, stage shortNamed [] = .ok (some t) ∧ paths t ≠ [] ∧ ∀ path ∈ paths t, ¬IsImported path := by
  obtain ⟨t, ht, hpaths⟩ := exists_stage_shortNamed
  refine ⟨t, ht, ?_, ?_⟩
  · rw [hpaths]
    exact List.cons_ne_nil _ _
  · rw [hpaths]
    simp only [List.mem_singleton, forall_eq, IsImported]
    decide

end ResourceModels.Kcl
