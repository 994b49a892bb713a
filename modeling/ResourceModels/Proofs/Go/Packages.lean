import ResourceModels.Proofs.Collect
import ResourceModels.Proofs.FileTree
import ResourceModels.Proofs.Go.SharedDocument

/-!
# Types of a Go package

The files of one directory are one package, and each is written without regard to the others. What
stands at a path is the file of the last document that goes there, so whether two files of a
package declare a type of one name is decided by the documents.
-/

namespace ResourceModels.Go

open FileStore (lookup?)

/-- The documents that Go files are written for, with path and package. -/
def prepared (extracts : List Extract) : List (String × OpenApi × String) :=
  (modelPath "meta.k8s.io" "meta" "v1",
      prepareShared (sharedDocument (extracts.map (·.document))), "v1") ::
    extracts.map fun e => (modelPath e.group e.kind e.version, prepare e.document, e.version)

def preparedAt (extracts : List Extract) : Dict (OpenApi × String) := placed (prepared extracts)

/-- The Go file at a path. -/
def fileAt? (extracts : List Extract) (path : String) : Option SourceFile :=
  ((preparedAt extracts).get? path).bind fun d => (emit d.1 d.2).toOption

/-- No two paths of one directory have a name in common. -/
def TypesApart (names : String → List String) : Prop :=
  ∀ path other, path ≠ other → Path.parent path = Path.parent other →
    (names path).Disjoint (names other)

def fileTypes (extracts : List Extract) (path : String) : List String :=
  ((fileAt? extracts path).map (·.typeNames)).getD []

/-- The names of the types of the document for a path. -/
def preparedTypes (extracts : List Extract) (path : String) : List String :=
  (((preparedAt extracts).get? path).map fun d => (documentTypes d.1).map (·.name)).getD []

theorem sources_eq (extracts : List Extract) :
    sources extracts = (prepared extracts).map fun p => (p.1, source p.2.1 p.2.2) := by
  simp [sources, prepared, sharedSource, kindSource]

theorem source_eq_ok {doc : OpenApi} {package : String} {f : SourceFile} :
    source doc package = .ok f ↔ emit doc package = .ok f := Outcome.mapError_eq_ok

theorem writeSource_eq_ok {t t' : FileTree} {s : String × Except GoError SourceFile} :
    writeSource t s = .ok t' ↔ ∃ f, s.2 = .ok f ∧ FileStore.writeText t s.1 f.text = .ok t' := by
  simp only [writeSource, Outcome.bind_eq_ok, Outcome.mapError_eq_ok]

theorem writeSources_ok {sources : List (String × Except GoError SourceFile)} {t t' : FileTree}
    (h : sources.foldlM writeSource t = .ok t') :
    ∃ files : List (String × SourceFile), sources = files.map (fun file => (file.1, .ok file.2)) ∧
      t.writeTexts (files.map fun file => (file.1, file.2.text)) = .ok t' := by
  induction sources generalizing t with
  | nil =>
    cases h
    exact ⟨[], rfl, rfl⟩
  | cons s rest ih =>
    rw [List.foldlM_cons, Outcome.bind_eq_ok] at h
    obtain ⟨t₁, hs, hrest⟩ := h
    obtain ⟨f, hf, hw⟩ := writeSource_eq_ok.mp hs
    obtain ⟨files, hfiles, ht⟩ := ih hrest
    refine ⟨(s.1, f) :: files, ?_, ?_⟩
    · rw [List.map_cons, ← hfiles, ← hf]
    · rw [List.map_cons, FileTree.writeTexts, List.foldlM_cons, Outcome.bind_eq_ok]
      exact ⟨t₁, hw, ht⟩

variable {extracts : List Extract}

/-- Where all sources could be made, the last one for a path is the file of the last document. -/
theorem fileAt?_eq {files : List (String × SourceFile)}
    (h : sources extracts = files.map fun file => (file.1, .ok file.2)) (path : String) :
    fileAt? extracts path = (placed files).get? path ∧
      ∀ d, (preparedAt extracts).get? path = some d →
        ∃ f, fileAt? extracts path = some f ∧ emit d.1 d.2 = .ok f := by
  -- placing does not look at what is placed, so it may be done before or after emission
  have hplaced : (placed (sources extracts)).get? path = ((placed files).get? path).map .ok := by
    rw [h, get?_placed_map]
  rw [sources_eq, get?_placed_map (fun d : OpenApi × String => source d.1 d.2)] at hplaced
  unfold fileAt? preparedAt
  cases hd : (placed (prepared extracts)).get? path with
  | none =>
    rw [hd, Option.map_none, eq_comm, Option.map_eq_none_iff] at hplaced
    exact ⟨hplaced.symm, nofun⟩
  | some d =>
    rw [hd, Option.map_some] at hplaced
    obtain ⟨f, hf, hs⟩ := Option.map_eq_some_iff.mp hplaced.symm
    have he : emit d.1 d.2 = .ok f := source_eq_ok.mp hs.symm
    have hfile : (emit d.1 d.2).toOption = some f := Outcome.toOption_eq_some.mpr he
    refine ⟨hfile.trans hf.symm, ?_⟩
    rintro _ ⟨⟩
    exact ⟨f, hfile, he⟩

theorem generate_ok {σ : Type} [FileStore σ] {files : σ} {exclude : List String} {t : FileTree}
    (h : generate files exclude = .ok (some t)) :
    ∃ extracts, Collect.documents files exclude = .ok extracts ∧ ∃ t₀,
      FileStore.writeText (∅ : FileTree) "models/go.mod" moduleFile = .ok t₀ ∧
        (sources extracts).foldlM writeSource t₀ = .ok t := by
  simp only [generate, Outcome.bind_eq_ok, Outcome.mapError_eq_ok] at h
  obtain ⟨extracts, hd, h⟩ := h
  refine ⟨extracts, hd, ?_⟩
  split at h
  · cases h
  · obtain ⟨t₀, ht₀, t', ht', h⟩ := by
      simpa only [Outcome.bind_eq_ok, Outcome.mapError_eq_ok] using h
    cases h
    exact ⟨t₀, ht₀, ht'⟩

theorem lookup?_writeSources {t₀ t : FileTree}
    (h : (sources extracts).foldlM writeSource t₀ = .ok t) (path : String) :
    lookup? t path =
      ((fileAt? extracts path).map fun f => FileTree.textEntry f.text).or (lookup? t₀ path) := by
  obtain ⟨files, hfiles, hw⟩ := writeSources_ok h
  rw [FileTree.lookup?_writeTexts hw, get?_placed_map, ← (fileAt?_eq hfiles path).1,
    Option.map_map]
  rfl

theorem lookup?_generate {t₀ t : FileTree}
    (h₀ : FileStore.writeText (∅ : FileTree) "models/go.mod" moduleFile = .ok t₀)
    (h : (sources extracts).foldlM writeSource t₀ = .ok t) {path : String}
    (hp : path ≠ "models/go.mod") :
    lookup? t path = (fileAt? extracts path).map fun f => FileTree.textEntry f.text := by
  have hmodule : lookup? t₀ path = none := by
    have hkey : Path.normalizeFile "models/go.mod" = .ok "models/go.mod" := by rfl
    simp only [FileStore.writeText, FileStore.write, FileStore.writeEntry, hkey] at h₀
    cases h₀
    rw [FileTree.lookup?_put, if_neg hp.symm]
    rfl
  rw [lookup?_writeSources h, hmodule, Option.or_none]

theorem endsWith_of_preparedAt {d : OpenApi × String} {path : String}
    (h : (preparedAt extracts).get? path = some d) : Text.endsWith ".go" path = true := by
  obtain ⟨file, hfile, hkey, _⟩ := exists_of_get?_placed h
  have hpath : ∃ start, file.1 = start ++ ".go" := by
    rcases List.mem_cons.mp hfile with rfl | hfile
    · exact ⟨_, rfl⟩
    · obtain ⟨e, _, rfl⟩ := List.mem_map.mp hfile
      exact ⟨_, rfl⟩
  obtain ⟨start, hstart⟩ := hpath
  rw [hstart] at hkey
  have htail : ∀ c ∈ ".go".toList, Path.isSeparator c = false := by simp [Path.isSeparator]
  exact Path.endsWith_of_normalize? htail (by decide) (Path.normalizeFile_eq_ok.mp hkey).1

theorem fileTypes_perm {files : List (String × SourceFile)}
    (h : sources extracts = files.map fun file => (file.1, .ok file.2)) (path : String) :
    (fileTypes extracts path).Perm (preparedTypes extracts path) := by
  obtain ⟨_, hemitted⟩ := fileAt?_eq h path
  unfold fileTypes preparedTypes
  cases hd : (preparedAt extracts).get? path with
  | none =>
    have hf : fileAt? extracts path = none := by rw [fileAt?, hd, Option.bind_none]
    rw [hf]
    exact List.Perm.refl _
  | some d =>
    obtain ⟨f, hf, he⟩ := hemitted d hd
    rw [hf]
    exact typeNames_perm_documentTypes he

theorem typesApart_congr {names names' : String → List String}
    (h : ∀ path, (names path).Perm (names' path)) : TypesApart names ↔ TypesApart names' := by
  simp only [TypesApart, List.disjoint_left, (h _).mem_iff]

theorem exists_fileTypes_perm {σ : Type} [FileStore σ] {files : σ} {exclude : List String}
    {t : FileTree} (h : generate files exclude = .ok (some t)) :
    ∃ extracts, Collect.documents files exclude = .ok extracts ∧
      ∀ path, (fileTypes extracts path).Perm (preparedTypes extracts path) := by
  obtain ⟨extracts, hd, t₀, _, ht⟩ := generate_ok h
  obtain ⟨written, hwritten, _⟩ := writeSources_ok ht
  exact ⟨extracts, hd, fileTypes_perm hwritten⟩

/-- The Go files of a tree are those of its documents, and no two of one package declare a type of
one name if and only if no two documents for one package have a type of one name. -/
theorem generate_typesApart_iff {σ : Type} [FileStore σ] {files : σ} {exclude : List String}
    {t : FileTree} (h : generate files exclude = .ok (some t)) :
    ∃ extracts, Collect.documents files exclude = .ok extracts ∧
      (∀ path, Text.endsWith ".go" path = true →
        lookup? t path = (fileAt? extracts path).map fun f => FileTree.textEntry f.text) ∧
      (∀ path f, fileAt? extracts path = some f → Text.endsWith ".go" path = true) ∧
      (TypesApart (fileTypes extracts) ↔ TypesApart (preparedTypes extracts)) := by
  obtain ⟨extracts, hd, t₀, h₀, ht⟩ := generate_ok h
  obtain ⟨written, hwritten, _⟩ := writeSources_ok ht
  refine ⟨extracts, hd, fun path hp => ?_, fun path f hf => ?_, ?_⟩
  · refine lookup?_generate h₀ ht ?_
    rintro rfl
    exact absurd hp (by decide)
  · obtain ⟨d, hd, _⟩ := Option.bind_eq_some_iff.mp hf
    exact endsWith_of_preparedAt hd
  · exact typesApart_congr (fileTypes_perm hwritten)

/-- A kind that can be written, and that has no shared components of its own. -/
structure Writable (e : Extract) : Prop where
  path : (Path.normalizeFile (modelPath e.group e.kind e.version)).isOk = true
  shared : ∀ name ∈ Dict.keys e.document.schemas, Vocabulary.isShared name = true →
    name ∈ Dict.keys Vocabulary.schemas
  emittable : Emittable (prepare e.document)

instance : DecidablePred Writable := fun e =>
  decidable_of_iff
    ((Path.normalizeFile (modelPath e.group e.kind e.version)).isOk = true ∧
      (∀ name ∈ Dict.keys e.document.schemas, Vocabulary.isShared name = true →
        name ∈ Dict.keys Vocabulary.schemas) ∧ Emittable (prepare e.document))
    ⟨fun h => ⟨h.1, h.2.1, h.2.2⟩, fun h => ⟨h.path, h.shared, h.emittable⟩⟩

theorem normalizeFile_sharedPath : Path.normalizeFile (modelPath "meta.k8s.io" "meta" "v1") =
    .ok (modelPath "meta.k8s.io" "meta" "v1") := by decide

/-- A kind that can be written and has no shared components, before the vocabulary is put in. -/
structure OwnWritable (e : Extract) : Prop where
  path : (Path.normalizeFile (modelPath e.group e.kind e.version)).isOk = true
  unshared : ∀ name ∈ Dict.keys e.document.schemas, Vocabulary.isShared name = false
  emittable : Emittable (prepare e.document)

instance : DecidablePred OwnWritable := fun e =>
  decidable_of_iff
    ((Path.normalizeFile (modelPath e.group e.kind e.version)).isOk = true ∧
      (∀ name ∈ Dict.keys e.document.schemas, Vocabulary.isShared name = false) ∧
        Emittable (prepare e.document))
    ⟨fun h => ⟨h.1, h.2.1, h.2.2⟩, fun h => ⟨h.path, h.unshared, h.emittable⟩⟩

theorem OwnWritable.writable {e : Extract} (h : OwnWritable e) : Writable e.withVocabulary where
  path := h.path
  shared name hname hshared := by
    rw [Extract.schemas_withVocabulary, Dict.mem_keys_insertAll] at hname
    rcases hname with hown | hvocabulary
    · exact absurd hshared (by simp [h.unshared name hown])
    · rw [Dict.keys]
      exact hvocabulary
  emittable := by
    rw [Extract.withVocabulary, prepare_withVocabulary]
    exact h.emittable

/-- The types of a kind are those of its document before the vocabulary is put in. -/
theorem preparedTypes_withVocabulary (own : List Extract) {path : String}
    (hpath : path ≠ modelPath "meta.k8s.io" "meta" "v1") :
    preparedTypes (own.map Extract.withVocabulary) path = preparedTypes own path := by
  unfold preparedTypes preparedAt prepared
  rw [get?_placed_cons normalizeFile_sharedPath, get?_placed_cons normalizeFile_sharedPath,
    if_neg hpath.symm, if_neg hpath.symm, List.map_map]
  simp only [Function.comp_def, Extract.withVocabulary, prepare_withVocabulary]

theorem exists_writeSources {sources : List (String × Except GoError SourceFile)}
    (h : ∀ s ∈ sources, (∃ key, Path.normalizeFile s.1 = .ok key) ∧ ∃ f, s.2 = .ok f)
    (t : FileTree) : ∃ t', sources.foldlM writeSource t = .ok t' := by
  induction sources generalizing t with
  | nil => exact ⟨t, rfl⟩
  | cons s rest ih =>
    obtain ⟨⟨key, hkey⟩, f, hf⟩ := h s List.mem_cons_self
    have hwrite : writeSource t s = .ok (FileStore.put t key (FileTree.textEntry f.text)) := by
      refine writeSource_eq_ok.mpr ⟨f, hf, ?_⟩
      rw [FileStore.writeText, FileStore.write, FileStore.writeEntry, hkey]
      rfl
    rw [List.foldlM_cons, hwrite]
    exact ih (fun s' hs' => h s' (List.mem_cons_of_mem _ hs')) _

theorem writable_of_writeSources {sources : List (String × Except GoError SourceFile)}
    {t t' : FileTree} (h : sources.foldlM writeSource t = .ok t') :
    ∀ s ∈ sources, (∃ key, Path.normalizeFile s.1 = .ok key) ∧ ∃ f, s.2 = .ok f := by
  obtain ⟨files, rfl, hw⟩ := writeSources_ok h
  intro s hs
  obtain ⟨file, hfile, rfl⟩ := List.mem_map.mp hs
  have hpath := FileTree.exists_normalizeFile_of_writeTexts hw _ (List.mem_map_of_mem hfile)
  exact ⟨hpath, file.2, rfl⟩

theorem exists_generate {σ : Type} [FileStore σ] {files : σ} {exclude : List String}
    (hd : Collect.documents files exclude = .ok extracts) (hne : extracts ≠ [])
    (h : ∀ e ∈ extracts, Writable e) : ∃ t, generate files exclude = .ok (some t) := by
  have hshared := sharedDocument_eq hd hne fun e he => (h e he).shared
  have hsources : ∀ s ∈ sources extracts,
      (∃ key, Path.normalizeFile s.1 = .ok key) ∧ ∃ f, s.2 = .ok f := by
    intro s hs
    rcases List.mem_cons.mp hs with rfl | hs
    · obtain ⟨f, hf⟩ := emittable_vocabulary.exists_emit "v1"
      rw [← hshared] at hf
      exact ⟨⟨_, normalizeFile_sharedPath⟩, f, source_eq_ok.mpr hf⟩
    · obtain ⟨e, he, rfl⟩ := List.mem_map.mp hs
      obtain ⟨f, hf⟩ := (h e he).emittable.exists_emit e.version
      exact ⟨Outcome.isOk_iff.mp (h e he).path, f, source_eq_ok.mpr hf⟩
  have hmodule : FileStore.writeText (∅ : FileTree) "models/go.mod" moduleFile =
      .ok (FileStore.put ∅ "models/go.mod" (FileTree.textEntry moduleFile)) := rfl
  obtain ⟨t, ht⟩ := exists_writeSources hsources
    (FileStore.put ∅ "models/go.mod" (FileTree.textEntry moduleFile))
  refine ⟨t, ?_⟩
  simp only [generate, Outcome.bind_eq_ok, Outcome.mapError_eq_ok]
  refine ⟨extracts, hd, ?_⟩
  rw [if_neg (by simpa using hne), hmodule, Except.mapError, Outcome.bind_eq_ok]
  exact ⟨_, rfl, Outcome.bind_eq_ok.mpr ⟨t, ht, rfl⟩⟩

/-- Kind `A` has an object `b`, whose type is called like kind `AB`. -/
def nestedAndKind : FileTree :=
  .ofEntries
    [("a.yaml", Collect.definitionFile "a" "A"
        "\x7bproperties: \x7bb: \x7bproperties: \x7bc: \x7b\x7d\x7d\x7d\x7d\x7d"),
      ("ab.yaml", Collect.definitionFile "a" "AB" "\x7b\x7d")]

/-- The kinds can be written, and the documents for some paths have a type of a name. -/
def haveType (name : String) (paths : List String) :
    Except DefinitionError (List Extract) → Bool
  | .ok extracts => !extracts.isEmpty && (extracts.all fun e => decide (Writable e)) &&
      paths.all fun path => name ∈ preparedTypes extracts path
  | .error _ => false

theorem haveType_iff {name : String} {paths : List String}
    {documents : Except DefinitionError (List Extract)} :
    haveType name paths documents = true ↔ ∃ extracts, documents = .ok extracts ∧ extracts ≠ [] ∧
      (∀ e ∈ extracts, Writable e) ∧ ∀ path ∈ paths, name ∈ preparedTypes extracts path := by
  cases documents <;> simp [haveType, and_assoc]

/-- The same, before the vocabulary is put in. -/
def ownHaveType (name : String) (paths : List String) (own : List Extract) : Bool :=
  !own.isEmpty && (own.all fun e => decide (OwnWritable e)) &&
    paths.all fun path => path ≠ modelPath "meta.k8s.io" "meta" "v1" &&
      name ∈ preparedTypes own path

theorem haveType_of_own {σ : Type} [FileStore σ] {files : σ} {exclude : List String}
    {name : String} {paths : List String}
    (h : Collect.ownHold (ownHaveType name paths) (Collect.resources files exclude) = true) :
    haveType name paths (Collect.documents files exclude) = true := by
  obtain ⟨own, hd, hown⟩ := Collect.exists_of_ownHold h
  simp only [ownHaveType, Bool.and_eq_true, List.all_eq_true, decide_eq_true_eq] at hown
  obtain ⟨⟨hne, hwritable⟩, hpaths⟩ := hown
  refine haveType_iff.mpr ⟨_, hd, by simpa using hne, ?_, fun path hpath => ?_⟩
  · exact List.forall_mem_map.mpr fun e he => (hwritable e he).writable
  · rw [preparedTypes_withVocabulary own (hpaths path hpath).1]
    exact (hpaths path hpath).2

theorem holdTexts_nestedAndKind :
    Collect.HoldTexts nestedAndKind []
      [("a.yaml", Collect.definitionText "a" "A"
          "\x7bproperties: \x7bb: \x7bproperties: \x7bc: \x7b\x7d\x7d\x7d\x7d\x7d"),
        ("ab.yaml", Collect.definitionText "a" "AB" "\x7b\x7d")] :=
  Collect.holdTexts_ofEntries (.refl _) (by decide) (by decide) (by decide)

theorem nestedAndKind_evaluated :
    haveType "AB" ["models/a/v/a.go", "models/a/v/ab.go"]
      (Collect.documents nestedAndKind []) = true := by
  apply haveType_of_own
  rw [holdTexts_nestedAndKind.resources_eq]
  simp only [Collect.charsOf, List.map_cons, List.map_nil, Collect.toList_definitionText,
    String.reduceToList]
  decide +kernel

theorem exists_generate_nestedAndKind : ∃ t, generate nestedAndKind [] = .ok (some t) := by
  obtain ⟨_, hd, hne, hwritable, _⟩ := haveType_iff.mp nestedAndKind_evaluated
  exact exists_generate hd hne hwritable

theorem nestedAndKind_typesApart_iff :
    ∃ t extracts, generate nestedAndKind [] = .ok (some t) ∧
      Collect.documents nestedAndKind [] = .ok extracts ∧
        (TypesApart (fileTypes extracts) ↔ TypesApart (preparedTypes extracts)) := by
  obtain ⟨t, ht⟩ := exists_generate_nestedAndKind
  obtain ⟨extracts, hd, _, _, hiff⟩ := generate_typesApart_iff ht
  exact ⟨t, extracts, ht, hd, hiff⟩

/-- Two files of one package declare a type `AB`. -/
theorem nestedAndKind_typesClash :
    ∃ t extracts, generate nestedAndKind [] = .ok (some t) ∧
      Collect.documents nestedAndKind [] = .ok extracts ∧ ¬TypesApart (fileTypes extracts) := by
  obtain ⟨t, ht⟩ := exists_generate_nestedAndKind
  obtain ⟨extracts, hd, hperm⟩ := exists_fileTypes_perm ht
  refine ⟨t, extracts, ht, hd, fun hapart => ?_⟩
  obtain ⟨_, hd', _, _, hboth⟩ := haveType_iff.mp nestedAndKind_evaluated
  cases hd.symm.trans hd'
  have hdisjoint := hapart "models/a/v/a.go" "models/a/v/ab.go" (by decide) (by decide)
  exact hdisjoint ((hperm _).mem_iff.mpr (hboth _ (by simp)))
    ((hperm _).mem_iff.mpr (hboth _ (by simp)))

end ResourceModels.Go
