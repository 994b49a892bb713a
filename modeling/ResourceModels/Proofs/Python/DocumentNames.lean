import ResourceModels.Proofs.Python.Arrangement
import ResourceModels.Proofs.Text.Lower

/-!
# Names of documents

The name of a document joins the labels of the group, the version and the kind in small letters by
low lines. Where these hold no low lines themselves, the last two of the name cut off version and
kind, and what stands before is the group, however many labels it has. The generator makes a
directory of the name, from which the layout reads the kind back.
-/

namespace ResourceModels.Python

/-- A text without low lines that is no more than one segment of a path. -/
structure IsPart (s : String) : Prop where
  noMark : '_' ∉ s.toList
  noSeparator : ∀ c ∈ s.toList, Path.isSeparator c = false

instance : DecidablePred IsPart := fun s =>
  decidable_of_iff ('_' ∉ s.toList ∧ s.toList.any Path.isSeparator = false)
    ⟨fun h => ⟨h.1, by simpa using h.2⟩, fun h => ⟨h.noMark, by simpa using h.noSeparator⟩⟩

theorem IsLabel.isPart {s : String} (h : IsLabel s) : IsPart s :=
  ⟨h.notMem (by decide) (by decide), h.noSeparator⟩

/-- Small letters bring in no marks. -/
theorem IsPart.lower {s : String} (h : IsPart s) : IsPart (Text.lower s) where
  noMark hmem := h.noMark (Text.mem_of_mem_lower (by decide) hmem)
  noSeparator := by
    obtain ⟨hslash, hback⟩ := Path.noSeparator_iff.mp h.noSeparator
    exact Path.noSeparator_iff.mpr ⟨fun hmem => hslash (Text.mem_of_mem_lower (by decide) hmem),
      fun hmem => hback (Text.mem_of_mem_lower (by decide) hmem)⟩

namespace Kind

variable {k k' : Kind}

/-- Without low lines of its own, a group can be read back from what stands for it. -/
theorem restore_dots {group : List Char} (h : '_' ∉ group) :
    (group.map fun c => if c = '.' then '_' else c).map (fun c => if c = '_' then '.' else c) =
      group := by
  induction group with
  | nil => rfl
  | cons c rest ih =>
    rw [List.mem_cons, not_or] at h
    rw [List.map_cons, List.map_cons, ih h.2]
    by_cases hc : c = '.'
    · simp [hc]
    · simp [hc, Ne.symm h.1]

/-- A kind whose group, version and name can be told apart between low lines. -/
structure Joined (k : Kind) : Prop where
  group : IsPart k.group
  version : IsPart k.version
  name : IsPart k.name

theorem isPart_group (h : ∀ label ∈ k.labels, IsLabel label) : IsPart k.group :=
  ⟨notMem_group h (by decide) (by decide) (by decide), noSeparator_group h⟩

theorem Named.joined (h : k.Named) : k.Joined :=
  ⟨isPart_group h.labels, h.version.isPart, h.noMark, h.noSeparator⟩

/-- Different kinds have documents of different names. -/
theorem Joined.eq_of_package (h : k.Joined) (h' : k'.Joined) (heq : k.package = k'.package) :
    k = k' := by
  have hlist := congrArg String.toList heq
  rw [toList_package, toList_package] at hlist
  obtain ⟨hfront, hname⟩ := Text.eq_of_last_mark h.name.noMark h'.name.noMark hlist
  obtain ⟨hgroup, hversion⟩ := Text.eq_of_last_mark h.version.noMark h'.version.noMark hfront
  have hback := congrArg (List.map fun c => if c = '_' then '.' else c) hgroup
  rw [restore_dots h.group.noMark, restore_dots h'.group.noMark] at hback
  exact Kind.ext (String.toList_inj.mp hback) (String.toList_inj.mp hversion)
    (String.toList_inj.mp hname)

theorem Joined.noSeparator_package (h : k.Joined) :
    ∀ c ∈ k.package.toList, Path.isSeparator c = false :=
  Kind.noSeparator_package h.group.noSeparator h.version.noSeparator h.name.noSeparator

theorem isFilePath_document (h : ∀ c ∈ k.package.toList, Path.isSeparator c = false) :
    Path.IsFilePath (k.package ++ ".yaml") := by
  have hclean : ∀ c ∈ (k.package ++ ".yaml").toList, Path.isSeparator c = false :=
    Path.noSeparator_append h (by simp [Path.isSeparator])
  rw [Path.isFilePath_iff, Path.segments_of_noSeparator hclean]
  constructor
  · intro s hs
    rw [List.mem_singleton.mp hs]
    refine Path.isPlain_of_length ?_
    have hending : ".yaml".length = 5 := by decide
    rw [String.length_append, hending]
    omega
  · exact fun hmem => absurd (hclean _ hmem) (by decide)

end Kind

/-! ## Kinds that are read back -/

section

variable {σ : Type} [FileStore σ] {files : σ} {source target file : String}

/-- A file of the package of a kind is moved to its place. -/
def moveModule (target : String) (files : σ) (file module kind : String) : Except LayoutError σ :=
  match destination? files target module kind with
  | none => .ok files
  | some (path, depth) => do
    let bytes ← (contents files file path depth).mapError (.move file)
    (FileStore.write files path bytes).mapError (.move path)

theorem moveFile_eq {package module : String} (h : parts? source file = some (package, module)) :
    moveFile source target files file = moveModule target files file module (kindOf package) := by
  rw [parts?] at h
  simp only [moveFile, h]
  rfl

end

section

variable {group version kind group' version' kind' : String}

theorem joined_of_labels (hgroup : ∀ label ∈ Text.split (· = '.') group, IsLabel label)
    (hversion : IsPart version) (hkind : IsPart kind) :
    Kind.Joined ⟨group, version, Text.lower kind⟩ :=
  ⟨Kind.isPart_group hgroup, hversion, hkind.lower⟩

/-- Where groups are made of labels, and versions and kinds can stand between low lines, two
documents have one name if and only if they are of one group, one version and one kind in small
letters. A document is staged under that name, and whatever the generator leaves in the directory
that goes by it is laid out for that kind. -/
theorem documentName_eq_iff (hgroup : ∀ label ∈ Text.split (· = '.') group, IsLabel label)
    (hversion : IsPart version) (hkind : IsPart kind)
    (hgroup' : ∀ label ∈ Text.split (· = '.') group', IsLabel label) (hversion' : IsPart version')
    (hkind' : IsPart kind') :
    (documentName group version kind = documentName group' version' kind' ↔
      group = group' ∧ version = version' ∧ Text.lower kind = Text.lower kind') ∧
    Path.normalizeFile (documentName group version kind) = .ok (documentName group version kind) ∧
    ∃ stem, documentName group version kind = stem ++ ".yaml" ∧ kindOf stem = Text.lower kind ∧
      ∀ {σ : Type} [FileStore σ] (files : σ) (source target module : String), source ≠ "" →
        moveFile source target files (source ++ "/" ++ (stem ++ "/" ++ module)) =
          moveModule target files (source ++ "/" ++ (stem ++ "/" ++ module)) module
            (Text.lower kind) := by
  have hjoined := joined_of_labels hgroup hversion hkind
  have hjoined' := joined_of_labels hgroup' hversion' hkind'
  have hclean := hjoined.noSeparator_package
  have hkindOf := Kind.kindOf_package hjoined.name.noMark
  refine ⟨⟨fun h => ?_, ?_⟩, ?_, _, Kind.documentName_eq .., hkindOf, ?_⟩
  · rw [Kind.documentName_eq, Kind.documentName_eq, String.append_left_inj] at h
    exact Kind.mk.inj (hjoined.eq_of_package hjoined' h)
  · rintro ⟨rfl, rfl, hlower⟩
    rw [documentName, documentName, hlower]
  · rw [Kind.documentName_eq]
    exact Path.normalizeFile_of_isFilePath (Kind.isFilePath_document hclean)
  · intro σ _ files source target module hsource
    have hslash := (Path.noSeparator_iff.mp hclean).1
    rw [moveFile_eq (parts?_append hsource hslash module), hkindOf]

end

/-- A kind with letters beyond ASCII, in a group and version that another one has as its labels. -/
theorem documentName_eq_iff_accented :
    ((∀ label ∈ Text.split (· = '.') "a.b", IsLabel label) ∧
      (∀ label ∈ Text.split (· = '.') "a.b.v1", IsLabel label) ∧ IsPart "v1" ∧ IsPart "b" ∧
      IsPart "ÉCOLE" ∧ IsPart "École") ∧
    documentName "a.b" "v1" "ÉCOLE" = documentName "a.b" "v1" "École" ∧
    documentName "a.b" "v1" "École" ≠ documentName "a.b.v1" "b" "École" ∧
    ∃ stem, documentName "a.b" "v1" "École" = stem ++ ".yaml" ∧ kindOf stem = "école" ∧
      ∀ files : FileTree, moveFile "generated" "sorted" files
          ("generated" ++ "/" ++ (stem ++ "/" ++ "b/a/v1.py")) =
        moveModule "sorted" files ("generated" ++ "/" ++ (stem ++ "/" ++ "b/a/v1.py")) "b/a/v1.py"
          "école" := by
  have hgroup : ∀ label ∈ Text.split (· = '.') "a.b", IsLabel label := by decide
  have hgroup' : ∀ label ∈ Text.split (· = '.') "a.b.v1", IsLabel label := by decide
  have hversion : IsPart "v1" := by decide
  have hversion' : IsPart "b" := by decide
  have hcapitals : IsPart "ÉCOLE" := by decide
  have hkind : IsPart "École" := by decide
  have hlower : Text.lower "ÉCOLE" = Text.lower "École" := by decide
  have hsmall : Text.lower "École" = "école" := by decide
  have hsame := (documentName_eq_iff hgroup hversion hcapitals hgroup hversion hkind).1
  obtain ⟨hother, -, stem, hstem, hread, hmoved⟩ :=
    documentName_eq_iff hgroup hversion hkind hgroup' hversion' hkind
  rw [hsmall] at hread
  refine ⟨⟨hgroup, hgroup', hversion, hversion', hcapitals, hkind⟩, hsame.mpr ⟨rfl, rfl, hlower⟩,
    fun h => absurd (hother.mp h).2.1 (by decide), stem, hstem, hread, fun files => ?_⟩
  rw [hmoved files "generated" "sorted" "b/a/v1.py" (by decide), hsmall]

end ResourceModels.Python
