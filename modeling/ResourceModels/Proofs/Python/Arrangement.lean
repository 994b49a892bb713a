import ResourceModels.Proofs.FileStore.Invariant
import ResourceModels.Proofs.FileTree
import ResourceModels.Proofs.Path.Directory
import ResourceModels.Proofs.Python.Place
import ResourceModels.Python.Layout

/-!
# Packages that are laid out

The layout of packages moves one file after the other, and keeps kinds apart that rest in different
directories.
-/

/-!
## Moving one file of the generator

A file of a package either has no place in the layout and changes nothing, or it is written at one
path below the target. A shared model is written only where no file is yet, and so is the marker of
a directory.
-/

namespace ResourceModels.Python

open FileStore (lookup? put read readText isFile Lawful)
open ResourceModels.Path (normalizeFile IsFilePath)

/-- The package of a file that the generator left, and its path in the package. -/
def parts? (source file : String) : Option (String × String) :=
  (Path.below? file source).bind (Text.splitFirst? '/')

/-- Where in the layout a file of the generator belongs, if there is a place for it. -/
def goal? (source target file : String) : Option String :=
  (parts? source file).bind fun part =>
    if isShared part.2 then some (Path.join target part.2)
    else (relocated? part.2 (kindOf part.1)).map (Path.join target)

theorem parts?_append {source package : String} (hsource : source ≠ "")
    (hpackage : '/' ∉ package.toList) (module : String) :
    parts? source (source ++ "/" ++ (package ++ "/" ++ module)) = some (package, module) := by
  rw [parts?, Path.below?_append_slash hsource]
  exact Text.splitFirst?_eq_some.mpr ⟨rfl, hpackage⟩

theorem eq_of_parts? {source file package module : String} (hsource : source ≠ "")
    (h : parts? source file = some (package, module)) :
    file = source ++ "/" ++ (package ++ "/" ++ module) := by
  obtain ⟨rest, hrest, hcut⟩ := Option.bind_eq_some_iff.mp h
  rw [Path.below?, if_neg hsource] at hrest
  rw [Text.after?_eq_some.mp hrest, (Text.splitFirst?_eq_some.mp hcut).1]
  rfl

section

variable {σ : Type} [FileStore σ] {files : σ} {source target file package module path key : String}

theorem write_of_normalizeFile (hkey : normalizeFile path = .ok key) (bytes : ByteArray) :
    FileStore.write files path bytes = .ok (put files key (.file bytes)) := by
  rw [FileStore.write, FileStore.writeEntry, hkey]
  rfl

theorem moveFile_of_goal?_none (h : goal? source target file = none) :
    moveFile source target files file = .ok files := by
  unfold moveFile
  split
  · rfl
  · next package module hparts =>
    rw [goal?, parts?, hparts, Option.bind_some] at h
    split at h
    · cases h
    · next hshared =>
      rw [destination?, if_neg hshared, Option.map_eq_none_iff.mp h]
      rfl

/-- The module of a kind is written with its imports anchored at its new depth. -/
theorem moveFile_module (hparts : parts? source file = some (package, module))
    (hshared : isShared module = false) (hpath : relocated? module (kindOf package) = some path)
    (hending : Text.endsWith ".py" (Path.join target path) = true)
    (hkey : normalizeFile (Path.join target path) = .ok key) {text : String}
    (htext : readText files file = .ok text) :
    moveFile source target files file =
      .ok (put files key (.file (Text.encode (anchor (climb path) text)))) := by
  have hcontents : contents files file (Path.join target path) (some (climb path)) =
      .ok (Text.encode (anchor (climb path) text)) := by
    rw [contents, if_pos hending, htext]
    rfl
  rw [parts?] at hparts
  simp only [moveFile, hparts, destination?, hshared, hpath, Bool.false_eq_true, if_false,
    Option.map_some, hcontents, write_of_normalizeFile hkey]
  rfl

theorem moveFile_shared (hparts : parts? source file = some (package, module))
    (hshared : isShared module = true) (hkey : normalizeFile (Path.join target module) = .ok key)
    {bytes : ByteArray} (hread : read files file = .ok bytes) :
    moveFile source target files file =
      .ok (if isFile files (Path.join target module) then files
        else put files key (.file bytes)) := by
  rw [parts?] at hparts
  by_cases hfile : isFile files (Path.join target module) = true
  · simp only [moveFile, hparts, destination?, hshared, hfile, if_true]
  · simp only [moveFile, hparts, destination?, hshared, hfile, if_true, if_false, contents, hread,
      write_of_normalizeFile hkey, Bool.false_eq_true]
    rfl

theorem isFile_of_isFilePath (h : IsFilePath path) :
    isFile files path = (lookup? files path).isSome := by
  rw [isFile, Path.normalizeFile_of_isFilePath h]

variable [Lawful σ]

/-- A marker is put into a directory that has none, and no other file is touched. -/
theorem exists_mark {dir : String} (hdir : IsFilePath dir) (files : σ) :
    ∃ files', mark files dir = .ok files' ∧
      ∀ path, (lookup? files path).isSome → lookup? files' path = lookup? files path := by
  have hmarker : IsFilePath marker := by decide
  have hpath := Path.isFilePath_join hdir.1 hmarker
  simp only [mark, isFile_of_isFilePath hpath]
  split
  · exact ⟨files, rfl, fun _ _ => rfl⟩
  · next hnone =>
    rw [write_of_normalizeFile (Path.normalizeFile_of_isFilePath hpath)]
    refine ⟨_, rfl, fun path hsome => ?_⟩
    rw [Lawful.lookup?_put, if_neg]
    rintro rfl
    exact hnone hsome

theorem exists_foldlM_mark {marked : List String} (h : ∀ dir ∈ marked, IsFilePath dir)
    (files : σ) :
    ∃ files', marked.foldlM mark files = .ok files' ∧
      ∀ path, (lookup? files path).isSome → lookup? files' path = lookup? files path := by
  induction marked generalizing files with
  | nil => exact ⟨files, rfl, fun _ _ => rfl⟩
  | cons dir rest ih =>
    obtain ⟨files₁, hmark, hkept⟩ := exists_mark (h dir List.mem_cons_self) files
    obtain ⟨files₂, hrest, hkept'⟩ := ih (fun d hd => h d (List.mem_cons_of_mem _ hd)) files₁
    refine ⟨files₂, ?_, fun path hsome => ?_⟩
    · rw [List.foldlM_cons, hmark]
      exact hrest
    · have hpath := hkept path hsome
      rw [hkept' path (hpath ▸ hsome), hpath]

end

end ResourceModels.Python

/-!
## Kinds that are kept apart

When every package holds the module of one kind beside shared models, laying the packages out keeps
every module exactly if no two kinds of one version rest in one directory. A kind rests in the
directory named after it within its reversed group, unless that group begins with its name, or
counts as shared.
-/

namespace ResourceModels.Python

open FileStore (lookup? put paths read readText isFile Lawful PathsNormal)
open ResourceModels.Path (normalizeFile IsFilePath)

namespace Kind

/-- The name of the document of a kind, which the generator names the package after. -/
def package (k : Kind) : String :=
  String.ofList (k.group.toList.map fun c => if c = '.' then '_' else c) ++ "_" ++ k.version ++
    "_" ++ k.name

def source (k : Kind) : String := "generated" ++ "/" ++ (k.package ++ "/" ++ k.module)

/-- The labels of the directory in which the module rests in the end, the innermost first. -/
def resting (k : Kind) : List String := if isShared k.module then k.labels else k.home

def target (k : Kind) : String := "sorted" ++ "/" ++ modulePath k.resting k.version

/-- The module as it is laid out, when the generator wrote `text`. -/
def arranged (k : Kind) (text : String) : String :=
  if isShared k.module then text else anchor (climb (modulePath k.home k.version)) text

/-- No file is the place of both kinds. -/
def Apart (x y : Kind) : Prop := x.version = y.version → x.resting ≠ y.resting

variable {k x y : Kind}

theorem documentName_eq (group version kind : String) :
    documentName group version kind = (mk group version (Text.lower kind)).package ++ ".yaml" := rfl

theorem kindOf_package (h : '_' ∉ k.name.toList) : kindOf k.package = k.name := by
  have hcut : Text.splitLast? '_' k.package = some (_, k.name) :=
    Text.splitLast?_eq_some.mpr ⟨rfl, h⟩
  simp only [kindOf, hcut]

theorem WellNamed.kindOf_package (h : k.WellNamed) : kindOf k.package = k.name :=
  Kind.kindOf_package (h.name.notMem (by decide) (by decide))

theorem toList_package (k : Kind) : k.package.toList =
    ((k.group.toList.map fun c => if c = '.' then '_' else c) ++ '_' :: k.version.toList) ++
      '_' :: k.name.toList := by
  simp [package]

theorem noSeparator_package (hgroup : ∀ c ∈ k.group.toList, Path.isSeparator c = false)
    (hversion : ∀ c ∈ k.version.toList, Path.isSeparator c = false)
    (hname : ∀ c ∈ k.name.toList, Path.isSeparator c = false) :
    ∀ c ∈ k.package.toList, Path.isSeparator c = false := by
  have hmark : Path.isSeparator '_' = false := by decide
  intro c hc
  simp only [toList_package, List.mem_append, List.mem_cons, List.mem_map] at hc
  rcases hc with (⟨d, hd, rfl⟩ | rfl | hc) | rfl | hc
  · split
    · exact hmark
    · exact hgroup d hd
  · exact hmark
  · exact hversion c hc
  · exact hmark
  · exact hname c hc

theorem notMem_group (h : ∀ label ∈ k.labels, IsLabel label) {c : Char}
    (hc : c.isAlphanum = false) (hhyphen : c ≠ '-') (hdot : c ≠ '.') : c ∉ k.group.toList := by
  intro hmem
  rw [← k.join_labels] at hmem
  rcases Text.mem_of_mem_join hmem with hmem | ⟨label, hlabel, hmem⟩
  · exact hdot (List.mem_singleton.mp hmem)
  · exact (h label hlabel).notMem hc hhyphen hmem

theorem noSeparator_group (h : ∀ label ∈ k.labels, IsLabel label) :
    ∀ c ∈ k.group.toList, Path.isSeparator c = false :=
  Path.noSeparator_iff.mpr ⟨notMem_group h (by decide) (by decide) (by decide),
    notMem_group h (by decide) (by decide) (by decide)⟩

theorem Placed.noSeparator_package (h : k.Placed) :
    ∀ c ∈ k.package.toList, Path.isSeparator c = false :=
  Kind.noSeparator_package (noSeparator_group h.labels) h.version.noSeparator h.noSeparator

theorem WellNamed.parts?_source (h : k.WellNamed) :
    parts? "generated" k.source = some (k.package, k.module) :=
  parts?_append (by decide)
    (fun hmem => absurd (h.placed.noSeparator_package '/' hmem) (by decide)) k.module

theorem WellNamed.isFilePath_package (h : k.WellNamed) : IsFilePath k.package := by
  have hlength : 2 < k.package.length := by
    have hversion := Nat.pos_of_ne_zero (String.length_eq_zero_iff.not.mpr h.version.1)
    have hmark : "_".length = 1 := by decide
    simp only [package, String.length_append, hmark]
    omega
  rw [Path.isFilePath_iff, Path.segments_of_noSeparator h.placed.noSeparator_package]
  constructor
  · intro s hs
    rw [List.mem_singleton.mp hs]
    exact Path.isPlain_of_length hlength
  · exact fun hmem => absurd (h.placed.noSeparator_package '\\' hmem) (by decide)

theorem WellNamed.isFilePath_source (h : k.WellNamed) : IsFilePath k.source := by
  rw [source, Path.isFilePath_append_slash, Path.isFilePath_append_slash, module_eq]
  exact ⟨by decide, h.isFilePath_package, isFilePath_modulePath k.labels_ne_nil h.labels h.version⟩

theorem WellNamed.isLabel_resting (h : k.WellNamed) : ∀ label ∈ k.resting, IsLabel label := by
  unfold resting
  split
  · exact h.labels
  · exact h.isLabel_home

theorem resting_ne_nil (k : Kind) : k.resting ≠ [] := by
  unfold resting
  split
  · exact k.labels_ne_nil
  · exact k.home_ne_nil

theorem target_eq_iff (hx : x.WellNamed) (hy : y.WellNamed) :
    x.target = y.target ↔ ¬x.Apart y := by
  rw [target, target, String.append_right_inj, modulePath_inj x.resting_ne_nil hx.isLabel_resting
    hx.version y.resting_ne_nil hy.isLabel_resting hy.version, Apart,
    Classical.not_imp, not_not]

theorem WellNamed.isFilePath_target (h : k.WellNamed) : IsFilePath k.target := by
  rw [target, Path.isFilePath_append_slash]
  exact ⟨by decide, isFilePath_modulePath k.resting_ne_nil h.isLabel_resting h.version⟩

theorem target_eq_join (h : k.WellNamed) :
    k.target = Path.join "sorted" (modulePath k.resting k.version) :=
  (Path.join_of_ne (by decide)
    (isFilePath_modulePath k.resting_ne_nil h.isLabel_resting h.version).2).symm

theorem goal?_source (h : k.WellNamed) : goal? "generated" "sorted" k.source = some k.target := by
  rw [goal?, h.parts?_source, Option.bind_some, h.kindOf_package, h.relocated?_module,
    target_eq_join h]
  by_cases hshared : isShared k.module = true
  · rw [if_pos hshared, resting, if_pos hshared, ← module_eq]
  · rw [if_neg hshared, resting, if_neg hshared]
    rfl

theorem eq_of_source_eq (hx : x.WellNamed) (hy : y.WellNamed) (h : x.source = y.source) :
    x = y := by
  have hparts : (y.package, y.module) = (x.package, x.module) := by
    apply Option.some.inj
    rw [← hy.parts?_source, ← h, hx.parts?_source]
  obtain ⟨hpackage, hmodule⟩ := Prod.mk.inj hparts
  have hname : x.name = y.name := by rw [← hx.kindOf_package, ← hpackage, hy.kindOf_package]
  rw [module_eq, module_eq, modulePath_inj y.labels_ne_nil hy.labels hy.version x.labels_ne_nil
    hx.labels hx.version, ← group_eq_iff] at hmodule
  exact Kind.ext hmodule.2.symm hmodule.1.symm hname

end Kind

end ResourceModels.Python
