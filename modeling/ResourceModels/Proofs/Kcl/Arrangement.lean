import ResourceModels.Kcl
import ResourceModels.Proofs.FileStore.Edits
import ResourceModels.Proofs.FileTree
import ResourceModels.Proofs.Path.Directory
import ResourceModels.Proofs.Text.Cut

/-!
# Files that are laid out

Schemas are laid out by copying each of some files to the place that it has, if it has one. That
fails exactly at a place that no path in normal form names, and otherwise adds the paths of the
places. Where the importer has left nothing of its own, the layout is made of two such copies.
-/

namespace ResourceModels.Kcl

open FileStore (lookup? put paths Lawful PathsNormal)
open ResourceModels.Path (IsFilePath IsNormal)

section

variable {σ : Type} [FileStore σ] {place? : String → Option String} {files files' : σ}
  {list : List String} {source target shared file place : String}

/-- Copies a file to its place, if there is one. -/
def copyTo (place? : String → Option String) (files : σ) (file : String) : Except LayoutError σ :=
  match place? file with
  | some place => copyEntry files file place
  | none => .ok files

/-- Where a shared schema belongs. -/
def sharedPlace? (source target file : String) : Option String :=
  (Path.below? file source).map (Path.join target)

/-- Where a schema that is not a shared one belongs. -/
def kindPlace? (shared target file : String) : Option String :=
  if Path.isBelow file shared then none
  else (relocated? (Path.fileName file)).map (Path.join target)

theorem moveShared_eq :
    moveShared (σ := σ) source target = copyTo (sharedPlace? source target) := by
  funext files file
  unfold moveShared copyTo sharedPlace?
  cases Path.below? file source <;> rfl

theorem moveKind_eq : moveKind (σ := σ) shared target = copyTo (kindPlace? shared target) := by
  funext files file
  unfold moveKind copyTo kindPlace?
  split
  · rfl
  · cases relocated? (Path.fileName file) <;> rfl

/-- Every file of a list has a place that a path in normal form names, if it has a place. -/
def Placeable (place? : String → Option String) (list : List String) : Prop :=
  ∀ file ∈ list, ∀ place, place? file = some place → ∃ key, Path.normalizeFile place = .ok key

theorem copyEntry_eq_ok {e : Entry} (he : lookup? files source = some e) :
    copyEntry files source target = .ok files' ↔
      ∃ key, Path.normalizeFile target = .ok key ∧ put files key e = files' := by
  simp only [copyEntry, he, Outcome.mapError_eq_ok, FileStore.writeEntry, Outcome.bind_eq_ok,
    Outcome.pure_eq_ok]

theorem copyEntry_of_none (h : lookup? files source = none) (target : String) :
    copyEntry files source target = .ok files := by
  simp only [copyEntry, h]

theorem under_eq {dir : String} (hdir : IsNormal dir) (files : σ) :
    under files dir = .ok ((paths files).filter (Path.isBelow · dir)) := by
  have hkey : Path.normalize dir = .ok dir := Path.normalize_eq_ok.mpr hdir
  simp only [under, FileStore.filesUnder, hkey, bind, Except.bind, pure, Except.pure,
    Except.mapError]

theorem loosen_of_none {objectMeta : String} (hpath : IsFilePath objectMeta)
    (h : lookup? files objectMeta = none) : loosen files objectMeta = .ok files := by
  have hkey := Path.normalizeFile_of_isFilePath hpath
  simp [loosen, FileStore.isFile, hkey, h]

variable [Lawful σ]

theorem exists_copyTo_iff (hfile : file ∈ paths files) :
    (∃ files', copyTo place? files file = .ok files') ↔
      ∀ place, place? file = some place → ∃ key, Path.normalizeFile place = .ok key := by
  obtain ⟨e, he⟩ := Option.isSome_iff_exists.mp ((Lawful.mem_paths files file).mp hfile)
  unfold copyTo
  cases place? file with
  | none => simp
  | some place =>
    simp only [copyEntry_eq_ok he, Option.some.injEq, forall_eq']
    exact ⟨fun ⟨_, key, hkey, _⟩ => ⟨key, hkey⟩, fun ⟨key, hkey⟩ => ⟨_, key, hkey, rfl⟩⟩

theorem mem_paths_copyTo (hfile : file ∈ paths files) (h : copyTo place? files file = .ok files')
    (path : String) : path ∈ paths files' ↔ path ∈ paths files ∨
      ∃ place, place? file = some place ∧ Path.normalizeFile place = .ok path := by
  obtain ⟨e, he⟩ := Option.isSome_iff_exists.mp ((Lawful.mem_paths files file).mp hfile)
  unfold copyTo at h
  cases hplace : place? file with
  | none =>
    rw [hplace] at h
    cases h
    simp
  | some place =>
    rw [hplace] at h
    obtain ⟨key, hkey, rfl⟩ := (copyEntry_eq_ok he).mp h
    simp only [FileStore.mem_paths_put, Option.some.injEq, exists_eq_left', hkey, Except.ok.injEq]
    rw [or_comm, eq_comm]

theorem mem_paths_copyAll (hlist : ∀ file ∈ list, file ∈ paths files)
    (h : list.foldlM (copyTo place?) files = .ok files') (path : String) :
    path ∈ paths files' ↔ path ∈ paths files ∨
      ∃ file ∈ list, ∃ place, place? file = some place ∧ Path.normalizeFile place = .ok path := by
  induction list generalizing files with
  | nil =>
    cases h
    simp
  | cons file rest ih =>
    rw [List.foldlM_cons, Outcome.bind_eq_ok] at h
    obtain ⟨next, hnext, hrest⟩ := h
    have hstep := mem_paths_copyTo (hlist file List.mem_cons_self) hnext
    have hkept : ∀ file ∈ rest, file ∈ paths next := fun file hfile =>
      (hstep file).mpr (.inl (hlist file (List.mem_cons_of_mem _ hfile)))
    rw [ih hkept hrest, hstep, List.exists_mem_cons_iff, or_assoc]

theorem exists_copyAll_iff (hlist : ∀ file ∈ list, file ∈ paths files) :
    (∃ files', list.foldlM (copyTo place?) files = .ok files') ↔ Placeable place? list := by
  induction list generalizing files with
  | nil => exact iff_of_true ⟨files, rfl⟩ fun _ hfile => absurd hfile List.not_mem_nil
  | cons file rest ih =>
    have hfirst : (∃ next, copyTo place? files file = .ok next) ↔ _ :=
      exists_copyTo_iff (hlist file List.mem_cons_self)
    have hrest : ∀ next, copyTo place? files file = .ok next →
        ((∃ files', rest.foldlM (copyTo place?) next = .ok files') ↔ Placeable place? rest) :=
      fun next hnext => ih fun other hother =>
        (mem_paths_copyTo (hlist file List.mem_cons_self) hnext other).mpr
          (.inl (hlist other (List.mem_cons_of_mem _ hother)))
    simp only [List.foldlM_cons, Outcome.bind_eq_ok, Placeable, List.forall_mem_cons, ← hfirst]
    constructor
    · rintro ⟨files', next, hnext, hfiles'⟩
      exact ⟨⟨next, hnext⟩, (hrest next hnext).mp ⟨files', hfiles'⟩⟩
    · rintro ⟨⟨next, hnext⟩, hplaceable⟩
      obtain ⟨files', hfiles'⟩ := (hrest next hnext).mpr hplaceable
      exact ⟨files', next, hnext, hfiles'⟩

end

section

variable {t t' : FileTree}

theorem removeFile_of_none {path : String} (hpath : IsFilePath path)
    (h : lookup? t path = none) : removeFile t path = .ok t := by
  have hkey := Path.normalizeFile_of_isFilePath hpath
  have hdrop : FileStore.drop t path = t := FileTree.ext_lookup? fun other => by
    rw [FileTree.lookup?_drop]
    split
    · next heq => rw [← heq, h]
    · rfl
  simp only [removeFile, FileStore.remove, hkey, bind, Except.bind, pure, Except.pure, hdrop]

/-- What the importer leaves besides schemas of kinds. -/
def importerFiles : List String :=
  ["models/kcl.mod", "models/kcl.mod.lock",
    "models/k8s/apimachinery/pkg/apis/meta/v1/object_meta.k",
    "models/k8s/apimachinery/pkg/apis/meta/v1/managed_fields_entry.k"]

theorem arrange_eq_ok (h : ∀ path ∈ importerFiles, lookup? t path = none) :
    arrange t "models" "sorted" = .ok t' ↔ ∃ t₁,
      ((paths t).filter (Path.isBelow · "models/k8s")).foldlM
        (copyTo (sharedPlace? "models/k8s" "sorted/k8s")) t = .ok t₁ ∧
      ((paths t₁).filter (Path.isBelow · "models")).foldlM
        (copyTo (kindPlace? "models/k8s" "sorted")) t₁ = .ok t' := by
  simp only [importerFiles, List.forall_mem_cons, List.not_mem_nil, false_imp_iff, implies_true,
    and_true] at h
  obtain ⟨hmodule, hlock, hmeta, hentry⟩ := h
  have hfiles : Path.join "models" "kcl.mod" = "models/kcl.mod" ∧
      Path.join "models" "kcl.mod.lock" = "models/kcl.mod.lock" := by decide
  have hshared : Path.join (Path.join "models" sharedFolder) "object_meta.k" =
        "models/k8s/apimachinery/pkg/apis/meta/v1/object_meta.k" ∧
      Path.join (Path.join "models" sharedFolder) "managed_fields_entry.k" =
        "models/k8s/apimachinery/pkg/apis/meta/v1/managed_fields_entry.k" := by decide
  have hfolders : Path.join "models" "k8s" = "models/k8s" ∧
      Path.join "sorted" "k8s" = "sorted/k8s" := by decide
  simp only [arrange, List.foldlM_cons, List.foldlM_nil, hfiles, hshared, hfolders, moveShared_eq,
    moveKind_eq, copyEntry_of_none hmodule, copyEntry_of_none hlock,
    loosen_of_none (by decide) hmeta, removeFile_of_none (by decide) hentry,
    under_eq (show IsNormal "models/k8s" by decide),
    under_eq (show IsNormal "models" by decide), Outcome.bind_eq_ok, Outcome.pure_eq_ok,
    Except.ok.injEq, exists_eq_left']

end

end ResourceModels.Kcl

/-!
## What is copied into the layout

The layout is made by copies alone, once the shared schema of metadata was loosened and that of
managed fields removed. The name of a file that has a place is cut at marks, and its place holds
none, so no schema is copied that was put there by an earlier copy. Every copy brings a file as it
stood before the first of them, and of several copies to one path the last one counts.
-/

namespace ResourceModels.Kcl

open FileStore (lookup? put paths Lawful PathsNormal)
open ResourceModels.Path (IsFilePath IsNormal isBelow)

/-- What stands at a path after some copies, each from a path to another one. -/
def afterCopies (view : String → Option Entry) (copies : List (String × String))
    (path : String) : Option Entry :=
  match copies.reverse.find? (·.2 = path) with
  | some c => view c.1
  | none => view path

section

variable {view : String → Option Entry} {first second copies : List (String × String)}
  {path : String}

theorem afterCopies_of_forall_ne (h : ∀ c ∈ copies, c.2 ≠ path) :
    afterCopies view copies path = view path := by
  have hnone : copies.reverse.find? (·.2 = path) = none := by
    simpa only [List.find?_eq_none, List.mem_reverse, decide_eq_true_eq] using h
  rw [afterCopies, hnone]

theorem afterCopies_singleton (file key : String) :
    afterCopies view [(file, key)] path = if key = path then view file else view path := by
  by_cases hpath : key = path <;> simp [afterCopies, hpath]

/-- Copies may be made one after the other, if none is made from where another one was made to. -/
theorem afterCopies_append (h : ∀ c ∈ first, ∀ d ∈ second, c.2 ≠ d.1) :
    afterCopies view (first ++ second) path = afterCopies (afterCopies view first) second path := by
  rw [afterCopies, List.reverse_append, List.find?_append, afterCopies]
  cases hfind : second.reverse.find? (·.2 = path) with
  | none => rfl
  | some d =>
    have hd : d ∈ second := List.mem_reverse.mp (List.mem_of_find?_eq_some hfind)
    exact (afterCopies_of_forall_ne fun c hc => h c hc d hd).symm

end

/-- The copy of a file to its place, if there is one that a path in normal form names. -/
def copy? (place? : String → Option String) (file : String) : Option (String × String) :=
  (place? file).bind fun place => (Path.normalizeFile place).toOption.map fun key => (file, key)

section

variable {σ : Type} [FileStore σ] [Lawful σ] {place? : String → Option String} {files files' : σ}
  {list : List String} {file path : String}

omit [FileStore σ] [Lawful σ] in
theorem copy?_eq_some {c : String × String} : copy? place? file = some c ↔
    c.1 = file ∧ ∃ place, place? file = some place ∧ Path.normalizeFile place = .ok c.2 := by
  simp only [copy?, Option.bind_eq_some_iff, Option.map_eq_some_iff, Outcome.toOption_eq_some]
  constructor
  · rintro ⟨place, hplace, key, hkey, rfl⟩
    exact ⟨rfl, place, hplace, hkey⟩
  · rintro ⟨rfl, place, hplace, hkey⟩
    exact ⟨place, hplace, c.2, hkey, rfl⟩

theorem lookup?_put_copied {e : Entry} (he : lookup? files file = some e) (key path : String) :
    lookup? (put files key e) path = afterCopies (lookup? files) [(file, key)] path := by
  rw [Lawful.lookup?_put, afterCopies_singleton, he]

theorem lookup?_copyTo (hfile : file ∈ paths files) (h : copyTo place? files file = .ok files')
    (path : String) :
    lookup? files' path = afterCopies (lookup? files) (copy? place? file).toList path := by
  obtain ⟨e, he⟩ := Option.isSome_iff_exists.mp ((Lawful.mem_paths files file).mp hfile)
  unfold copyTo at h
  unfold copy?
  cases hplace : place? file with
  | none =>
    rw [hplace] at h
    cases h
    rfl
  | some place =>
    rw [hplace] at h
    obtain ⟨key, hkey, rfl⟩ := (copyEntry_eq_ok he).mp h
    rw [lookup?_put_copied he, Option.bind_some, hkey]
    rfl

/-- Files that are copied one after the other, none of them to where a later one comes from. -/
theorem lookup?_copyAll (hlist : ∀ file ∈ list, file ∈ paths files)
    (hapart : ∀ c ∈ list.filterMap (copy? place?), ∀ d ∈ list.filterMap (copy? place?), c.2 ≠ d.1)
    (h : list.foldlM (copyTo place?) files = .ok files') (path : String) :
    lookup? files' path = afterCopies (lookup? files) (list.filterMap (copy? place?)) path := by
  induction list generalizing files with
  | nil =>
    cases h
    rfl
  | cons file rest ih =>
    rw [List.foldlM_cons, Outcome.bind_eq_ok] at h
    obtain ⟨next, hnext, hrest⟩ := h
    have hfile := hlist file List.mem_cons_self
    have hsplit : (file :: rest).filterMap (copy? place?) =
        (copy? place? file).toList ++ rest.filterMap (copy? place?) := by
      rw [List.filterMap_cons]
      cases copy? place? file <;> rfl
    rw [hsplit] at hapart ⊢
    have hkept : ∀ file ∈ rest, file ∈ paths next := fun other hother =>
      (mem_paths_copyTo hfile hnext other).mpr (.inl (hlist other (List.mem_cons_of_mem _ hother)))
    rw [ih hkept (fun c hc d hd => hapart c (List.mem_append_right _ hc) d
        (List.mem_append_right _ hd)) hrest,
      afterCopies_append fun c hc d hd => hapart c (List.mem_append_left _ hc) d
        (List.mem_append_right _ hd)]
    rw [funext (lookup?_copyTo hfile hnext)]

end

end ResourceModels.Kcl
