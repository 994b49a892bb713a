import ResourceModels.Proofs.Collect.Distribution
import ResourceModels.Proofs.Python.DocumentNames

/-!
# Staged documents of the same definitions

The documents that are handed to the generator are written one after another, each under a name that
joins the labels of its group, its version and its kind by low lines. Where these hold no low lines
themselves, different kinds have different names, so nothing depends on the order of the manifests.
-/

namespace ResourceModels.Python

open FileStore (lookup?)

/-- A document with the name under which it is staged. -/
def stagedText (e : Extract) : String × String :=
  (documentName e.group e.version e.kind, (prepare e.group e.version e.document).toYaml)

section

variable {t t' : FileTree}

theorem foldlM_writeTexts {α : Type} (file : α → String × String) {xs : List α} :
    xs.foldlM (fun (t : FileTree) x =>
      (FileStore.writeText t (file x).1 (file x).2).mapError
        fun cause => PythonError.layout (.file cause)) t = .ok t' ↔
      t.writeTexts (xs.map file) = .ok t' := by
  induction xs generalizing t with
  | nil => exact ⟨fun h => by cases h; rfl, fun h => by cases h; rfl⟩
  | cons x rest ih =>
    rw [List.map_cons, FileTree.writeTexts, List.foldlM_cons, List.foldlM_cons,
      Outcome.bind_eq_ok, Outcome.bind_eq_ok]
    simp only [Outcome.mapError_eq_ok, ih, FileTree.writeTexts]

theorem stageResource_eq_ok {s : Staged} : stageResource t s = .ok t' ↔
    ∃ own, Collect.extracts s = .ok own ∧ t.writeTexts (own.map stagedText) = .ok t' := by
  let file (d : String × OpenApi) : String × String :=
    (documentName s.definition.group d.1 s.definition.names.kind,
      (prepare s.definition.group d.1 d.2).toYaml)
  have hfile : ∀ documents : Dict OpenApi, documents.map file = (documents.map fun d =>
      (⟨s.definition.group, s.definition.names.kind, d.1, s.source, d.2⟩ : Extract)).map
        stagedText := by
    intro documents
    rw [List.map_map]
    rfl
  rw [stageResource, Outcome.bind_eq_ok]
  simp only [Collect.extracts, Outcome.bind_eq_ok, Outcome.mapError_eq_ok, Outcome.pure_eq_ok]
  constructor
  · rintro ⟨documents, hdocuments, hw⟩
    exact ⟨_, ⟨documents, hdocuments, rfl⟩, hfile documents ▸ (foldlM_writeTexts file).mp hw⟩
  · rintro ⟨_, ⟨documents, hdocuments, rfl⟩, hw⟩
    exact ⟨documents, hdocuments, (foldlM_writeTexts file).mpr (hfile documents ▸ hw)⟩

theorem stageResources_eq_ok {staged : List Staged} : staged.foldlM stageResource t = .ok t' ↔
    ∃ found, staged.mapM Collect.extracts = .ok found ∧
      t.writeTexts (found.flatten.map stagedText) = .ok t' := by
  induction staged generalizing t with
  | nil =>
    simp only [List.mapM_nil, Outcome.pure_eq_ok, exists_eq_left', List.flatten_nil, List.map_nil]
    exact ⟨fun h => by cases h; rfl, fun h => by cases h; rfl⟩
  | cons s rest ih =>
    simp only [List.foldlM_cons, List.mapM_cons, Outcome.bind_eq_ok, Outcome.pure_eq_ok,
      stageResource_eq_ok, ih]
    constructor
    · rintro ⟨t₁, ⟨own, hown, hw⟩, found, hfound, hw'⟩
      refine ⟨_, ⟨own, hown, found, hfound, rfl⟩, ?_⟩
      rw [List.flatten_cons, List.map_append, FileTree.writeTexts_append]
      exact ⟨t₁, hw, hw'⟩
    · rintro ⟨_, ⟨own, hown, found, hfound, rfl⟩, hw⟩
      rw [List.flatten_cons, List.map_append, FileTree.writeTexts_append] at hw
      obtain ⟨t₁, hw, hw'⟩ := hw
      exact ⟨t₁, ⟨own, hown, hw⟩, found, hfound, hw'⟩

/-- What is staged are the documents, each written under its name. -/
theorem stage_eq_ok {σ : Type} [FileStore σ] {files : σ} {exclude : List String} :
    stage files exclude = .ok t ↔ ∃ extracts, Collect.documents files exclude = .ok extracts ∧
      (∅ : FileTree).writeTexts (extracts.map stagedText) = .ok t := by
  simp only [stage, Collect.documents, Outcome.bind_eq_ok, Outcome.mapError_eq_ok,
    Outcome.pure_eq_ok, stageResources_eq_ok]
  constructor
  · rintro ⟨staged, hstaged, found, hfound, hw⟩
    exact ⟨_, ⟨staged, hstaged, found, hfound, rfl⟩, hw⟩
  · rintro ⟨_, ⟨staged, hstaged, found, hfound, rfl⟩, hw⟩
    exact ⟨staged, hstaged, found, hfound, hw⟩

end

theorem fst_stagedText (e : Extract) : (stagedText e).1 = e.toKind.package ++ ".yaml" :=
  Kind.documentName_eq ..

namespace Kind

variable {k k' : Kind}

theorem Named.eq_of_package (h : k.Named) (h' : k'.Named) (heq : k.package = k'.package) :
    k = k' :=
  h.joined.eq_of_package h'.joined heq

theorem Placed.isFilePath_document (h : k.Placed) : Path.IsFilePath (k.package ++ ".yaml") :=
  Kind.isFilePath_document h.noSeparator_package

end Kind

section

variable {ms ms' : List Manifest} {l l' : List Extract}

/-- What is staged at a path. -/
def stagedAt? (l : List Extract) (path : String) : Option String :=
  (placed (l.map stagedText)).get? path

theorem chooses_stagedAt (path : String) : Chooses fun l => stagedAt? l path where
  nil := rfl
  append := .inr fun a b => by rw [stagedAt?, List.map_append, get?_placed_append]; rfl

theorem stagedAt?_eq_of_same (hsame : SameDefinitions ms ms') (hapart : DefinitionsApart ms)
    (hnamed : ∀ m ∈ ms, ∀ k ∈ m.kinds, k.Named) (hl : gather Manifest.extracts ms = some l)
    (hl' : gather Manifest.extracts ms' = some l') (path : String) :
    stagedAt? l path = stagedAt? l' path := by
  refine (chooses_stagedAt path).gather_eq hl hl' (fun m hm => hsame.mem_iff hm) ?_
  refine agree_of_kind hapart (P := fun e => Path.normalizeFile (stagedText e).1 = .ok path) ?_ ?_
  · intro own text htext
    obtain ⟨file, hfile, hpath, _⟩ := exists_of_get?_placed htext
    obtain ⟨e, he, rfl⟩ := List.mem_map.mp hfile
    exact ⟨e, he, hpath⟩
  · intro m hm m' hm' e e' hkind hkind' hpath hpath'
    have h := hnamed m hm _ hkind
    have h' := hnamed m' hm' _ hkind'
    rw [fst_stagedText, Path.normalizeFile_of_isFilePath h.isFilePath_document] at hpath
    rw [fst_stagedText, Path.normalizeFile_of_isFilePath h'.isFilePath_document] at hpath'
    have hname := Except.ok.inj (hpath.trans hpath'.symm)
    exact h.eq_of_package h' ((String.append_left_inj _).mp hname)

theorem stagedTexts_anonymous (extracts : List Extract) :
    (extracts.map Extract.anonymous).map stagedText = extracts.map stagedText := by
  rw [List.map_map]
  rfl

variable {σ τ : Type} [FileStore σ] [FileStore τ] {files : σ} {others : τ}
  {exclude exclude' : List String}

/-- The documents staged for some files are those for other files with the same definitions. -/
theorem stage_of_same (hm : Collect.manifests files exclude = some ms)
    (hm' : Collect.manifests others exclude' = some ms') (hsame : SameDefinitions ms ms')
    (hapart : DefinitionsApart ms) (hnamed : ∀ m ∈ ms, ∀ k ∈ m.kinds, k.Named) {t : FileTree}
    (h : stage files exclude = .ok t) : stage others exclude' = .ok t := by
  rw [stage_eq_ok] at h ⊢
  obtain ⟨extracts, hd, hw⟩ := h
  obtain ⟨extracts', hd', hl, hl'⟩ := Collect.exists_documents hm hm' hsame hd
  refine ⟨extracts', hd', ?_⟩
  rw [← stagedTexts_anonymous] at hw ⊢
  have hpaths := FileTree.exists_normalizeFile_of_writeTexts hw
  obtain ⟨t', ht'⟩ := FileTree.exists_writeTexts (fun file hfile => by
    obtain ⟨e, he, rfl⟩ := List.mem_map.mp hfile
    exact hpaths _ (List.mem_map_of_mem ((hsame.mem_extracts_iff hl hl').mpr he))) ∅
  have hsametree : t = t' := by
    refine FileTree.ext_lookup? fun path => ?_
    rw [FileTree.lookup?_writeTexts hw, FileTree.lookup?_writeTexts ht']
    exact congrArg (fun text => (Option.map FileTree.textEntry text).or _)
      (stagedAt?_eq_of_same hsame hapart hnamed hl hl' path)
  exact hsametree ▸ ht'

theorem exists_stage (hm : Collect.manifests files exclude = some ms)
    (hnamed : ∀ m ∈ ms, ∀ k ∈ m.kinds, k.Named) {extracts : List Extract}
    (hd : Collect.documents files exclude = .ok extracts) : ∃ t, stage files exclude = .ok t := by
  have hl := Collect.documents_anonymous files exclude
  rw [hd, hm] at hl
  have hpaths : ∀ file ∈ extracts.map stagedText, ∃ key, Path.normalizeFile file.1 = .ok key := by
    intro file hfile
    obtain ⟨e, he, rfl⟩ := List.mem_map.mp hfile
    obtain ⟨m, hmem, own, hown, he⟩ := (mem_gather_iff hl.symm).mp (List.mem_map_of_mem he)
    have hkind : e.toKind.Named := hnamed m hmem e.anonymous.toKind (Manifest.toKind_mem hown he)
    rw [fst_stagedText]
    exact ⟨_, Path.normalizeFile_of_isFilePath hkind.isFilePath_document⟩
  obtain ⟨t, ht⟩ := FileTree.exists_writeTexts hpaths ∅
  exact ⟨t, stage_eq_ok.mpr ⟨extracts, hd, ht⟩⟩

end

end ResourceModels.Python
