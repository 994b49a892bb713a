import ResourceModels.Collect
import ResourceModels.Proofs.Extract
import ResourceModels.Proofs.FileStore.Invariant
import ResourceModels.Proofs.Outcome

/-!
# Where documents come from

A collected document describes a version of a definition with a group and a kind, and among its
components is that of its own kind.
-/

namespace ResourceModels

namespace Collect

variable {σ : Type} [FileStore σ] {files : σ} {exclude : List String} {extracts : List Extract}

theorem exists_staged_of_mem (h : documents files exclude = .ok extracts) {e : Extract}
    (he : e ∈ extracts) :
    ∃ staged, resources files exclude = .ok staged ∧ ∃ s ∈ staged,
      (s.definition.group ≠ "" ∧ s.definition.names.kind ≠ "") ∧
        ∃ v ∈ s.definition.servedVersions, ∃ root ∈ v.schema?,
          e = ⟨s.definition.group, s.definition.names.kind, v.name, s.source,
            Extract.describe s.definition v.name root⟩ := by
  simp only [documents, Outcome.bind_eq_ok, Outcome.pure_eq_ok] at h
  obtain ⟨staged, hstaged, found, hfound, rfl⟩ := h
  obtain ⟨own, hown, he⟩ := List.mem_flatten.mp he
  obtain ⟨s, hs, hextracts⟩ := Outcome.exists_of_mem_mapM hfound hown
  simp only [Collect.extracts, Outcome.bind_eq_ok, Outcome.pure_eq_ok] at hextracts
  obtain ⟨documents, hdocuments, rfl⟩ := hextracts
  obtain ⟨d, hd, rfl⟩ := List.mem_map.mp he
  obtain ⟨v, hv, root, hroot, rfl⟩ := ResourceDefinition.exists_version_of_mem hdocuments hd
  have hnamed := (ResourceDefinition.of_documents_eq_ok hdocuments).1
  exact ⟨staged, hstaged, s, hs, hnamed, v, hv, root, hroot, rfl⟩

theorem kindComponent_mem (h : documents files exclude = .ok extracts) {e : Extract}
    (he : e ∈ extracts) : e.kindComponent ∈ e.document.schemas.keys := by
  obtain ⟨_, _, s, _, _, v, _, root, _, rfl⟩ := exists_staged_of_mem h he
  exact (Extract.mem_keys_describe s.definition v.name root).mpr (.inl rfl)

/-- A file that defines a kind with one version. -/
def definitionFile (group kind schema : String) : Entry :=
  .file (Text.encode ("\x7bkind: CustomResourceDefinition, spec: \x7bgroup: " ++ group ++
    ", names: \x7bkind: " ++ kind ++
      "\x7d, versions: [\x7bname: v, served: true, schema: \x7bopenAPIV3Schema: " ++ schema ++
        "\x7d\x7d]\x7d\x7d"))

end Collect

end ResourceModels

/-!
## Documents without the vocabulary

Every document is that of a kind and its list with the shared vocabulary put in. The vocabulary is
the same everywhere, so what concerns a kind only is seen from its document before that.
-/

namespace ResourceModels

def OpenApi.withVocabulary (doc : OpenApi) : OpenApi :=
  { doc with schemas := Dict.insertAll doc.schemas Vocabulary.schemas }

namespace Extract

def withVocabulary (e : Extract) : Extract := { e with document := e.document.withVocabulary }

theorem schemas_withVocabulary (e : Extract) : e.withVocabulary.document.schemas =
    Dict.insertAll e.document.schemas Vocabulary.schemas := rfl

/-- The document of a version of a resource before the vocabulary is put in. -/
def ownDocument (r : ResourceDefinition) (version : String) (root : Schema) : OpenApi :=
  let kind := r.names.kind
  let kindName := componentName r.group version kind
  let listKind := r.names.listKindName
  let listName := componentName r.group version listKind
  let own : Dict Schema := Dict.ofList
    [(kindName, kindSchema root r.group version kind),
      (listName, listSchema kindName r.group version listKind)]
  { title := r.metadata.name ++ " " ++ version
    revision := version
    paths := [(path r version, listPath listName)]
    schemas := own }

theorem describe_eq (r : ResourceDefinition) (version : String) (root : Schema) :
    describe r version root = (ownDocument r version root).withVocabulary := rfl

end Extract

namespace Collect

/-- The documents of a resource before the vocabulary is put in. -/
def ownExtracts (s : Staged) : List Extract :=
  (Dict.ofList (s.definition.servedVersions.filterMap fun v =>
    v.schema?.map fun root => (v.name, Extract.ownDocument s.definition v.name root))).map fun d =>
      ⟨s.definition.group, s.definition.names.kind, d.1, s.source, d.2⟩

theorem extracts_eq_own {s : Staged} (hgroup : s.definition.group ≠ "")
    (hkind : s.definition.names.kind ≠ "") :
    extracts s = .ok ((ownExtracts s).map Extract.withVocabulary) := by
  have hdocuments : s.definition.documents = .ok (Dict.mapValues OpenApi.withVocabulary
      (Dict.ofList (s.definition.servedVersions.filterMap fun v =>
        v.schema?.map fun root => (v.name, Extract.ownDocument s.definition v.name root)))) := by
    rw [ResourceDefinition.documents, if_neg (not_or.mpr ⟨hgroup, hkind⟩), ← Dict.ofList_mapValues,
      Dict.mapValues, List.map_filterMap]
    simp only [Option.map_map, Function.comp_def, Extract.describe_eq]
  rw [extracts, hdocuments, ownExtracts, List.map_map]
  change Except.ok _ = _
  rw [Dict.mapValues, List.map_map]
  rfl

section

variable {σ : Type} [FileStore σ] {files : σ} {exclude : List String}

theorem documents_eq_own {staged : List Staged} (h : resources files exclude = .ok staged)
    (hnamed : ∀ s ∈ staged, s.definition.group ≠ "" ∧ s.definition.names.kind ≠ "") :
    documents files exclude = .ok ((staged.flatMap ownExtracts).map Extract.withVocabulary) := by
  have hall : staged.mapM extracts =
      .ok (staged.map fun s => (ownExtracts s).map Extract.withVocabulary) := by
    rw [Outcome.mapM_eq_ok, List.forall₂_map_right_iff, List.forall₂_same]
    exact fun s hs => extracts_eq_own (hnamed s hs).1 (hnamed s hs).2
  rw [documents, h]
  change (staged.mapM extracts >>= fun found => pure found.flatten) = _
  rw [hall]
  change Except.ok _ = _
  rw [← List.flatMap_def, List.map_flatMap]

/-- The resources have groups and kinds, and their documents are as stated. -/
def ownHold (P : List Extract → Bool) : Except DefinitionError (List Staged) → Bool
  | .ok staged => (staged.all fun s => s.definition.group ≠ "" && s.definition.names.kind ≠ "") &&
      P (staged.flatMap ownExtracts)
  | .error _ => false

theorem exists_of_ownHold {P : List Extract → Bool}
    (h : ownHold P (resources files exclude) = true) :
    ∃ own, documents files exclude = .ok (own.map Extract.withVocabulary) ∧ P own = true := by
  cases hr : resources files exclude with
  | error fault => simp [hr, ownHold] at h
  | ok staged =>
    rw [hr, ownHold, Bool.and_eq_true, List.all_eq_true] at h
    obtain ⟨hnamed, hown⟩ := h
    exact ⟨_, documents_eq_own hr fun s hs => by simpa using hnamed s hs, hown⟩

end

end Collect

end ResourceModels

/-!
## Collecting from texts

What is collected from files that hold texts is found from the characters of the texts. On a tree
that is spelled out, it can so be computed without encoding the texts and decoding them again.
-/

namespace ResourceModels

namespace Manifest

/-- The documents of a text by its characters. -/
def charDocuments (chars : List Char) : List (Except Yaml.ReadError Yaml.Value) :=
  let readable := chars.take (Yaml.readable 0 0 0 chars)
  let tokens := Yaml.Scan.run (readable.length = chars.length) (readable.length + 2)
    (.start readable)
  (Yaml.Event.documentsFrom (tokens.length + 2) true tokens).map (·.read Yaml.Value.whole)

/-- The manifests of a text by its characters. -/
def ofChars (path : String) (chars : List Char) : Except DefinitionError (List Manifest) :=
  match (charDocuments chars).mapM ofDocument with
  | .ok manifests => .ok (manifests.filterMap id)
  | .error e => .error (.malformed path e)

theorem classify_encode (path text : String) :
    classify path (Text.encode text) = ofChars path text.toList := by
  rw [classify, documents, Text.decode?_encode]
  rfl

end Manifest

namespace Collect

/-- What a file stages that holds the given characters. -/
def stageChars (file : String) (chars : List Char) : Except DefinitionError (List Staged) := do
  let manifests ← Manifest.ofChars file chars
  let staged ← manifests.zipIdx.mapM fun m =>
    stage file (Text.encode (String.ofList chars)) (manifests.length == 1) m.2 m.1
  return staged.flatten

def charResources (files : List (String × List Char)) : Except DefinitionError (List Staged) := do
  let staged ← files.mapM fun file => stageChars file.1 file.2
  return staged.flatten

def charsOf (texts : List (String × String)) : List (String × List Char) :=
  texts.map fun text => (text.1, text.2.toList)

theorem stageFile_encode (file text : String) :
    stageFile file (Text.encode text) = stageChars file text.toList := by
  rw [stageFile, stageChars, Manifest.classify_encode, String.ofList_toList]

/-- The sources among the files, with the texts that they hold. -/
structure HoldTexts {σ : Type} [FileStore σ] (files : σ) (exclude : List String)
    (texts : List (String × String)) : Prop where
  sources : sources files exclude = texts.map (·.1)
  read : ∀ text ∈ texts, FileStore.read files text.1 = .ok (Text.encode text.2)

section

variable {σ : Type} [FileStore σ] {files : σ} {exclude : List String}
  {texts : List (String × String)}

theorem HoldTexts.resources_eq (h : HoldTexts files exclude texts) :
    resources files exclude = charResources (charsOf texts) := by
  obtain ⟨hsources, hread⟩ := h
  rw [resources, charResources, charsOf, hsources]
  congr 1
  clear hsources
  induction texts with
  | nil => rfl
  | cons text texts ih =>
    have hfirst := hread text List.mem_cons_self
    have hrest := ih fun t ht => hread t (List.mem_cons_of_mem _ ht)
    rw [List.map_cons, List.map_cons, List.mapM_cons, List.mapM_cons, hrest, hfirst]
    simp only [stageFile_encode]

theorem HoldTexts.documents_eq (h : HoldTexts files exclude texts) :
    documents files exclude = do
      return (← (← charResources (charsOf texts)).mapM extracts).flatten := by
  rw [documents, h.resources_eq]

end

/-- A tree holds the texts that it is made of. -/
theorem holdTexts_ofEntries {entries : List (String × Entry)} {exclude : List String}
    {texts : List (String × String)}
    (hentries : entries.Perm (texts.map fun text => (text.1, .file (Text.encode text.2))))
    (hpaths : ∀ text ∈ texts, Path.IsFilePath text.1) (hnodup : (texts.map (·.1)).Nodup)
    (hsources : sources (FileTree.ofEntries entries) exclude = texts.map (·.1)) :
    HoldTexts (FileTree.ofEntries entries) exclude texts := by
  refine ⟨hsources, fun text ht => (FileStore.read_eq_ok (hpaths text ht)).mpr ?_⟩
  refine ⟨_, Dict.get?_ofList_of_mem ?_ (hentries.mem_iff.mpr (List.mem_map_of_mem ht)), rfl⟩
  rw [(hentries.map _).nodup_iff, List.map_map]
  exact hnodup

/-- The text of a file that defines a kind with one version. -/
def definitionText (group kind schema : String) : String :=
  "\x7bkind: CustomResourceDefinition, spec: \x7bgroup: " ++ group ++
    ", names: \x7bkind: " ++ kind ++
      "\x7d, versions: [\x7bname: v, served: true, schema: \x7bopenAPIV3Schema: " ++ schema ++
        "\x7d\x7d]\x7d\x7d"

theorem toList_definitionText (group kind schema : String) :
    (definitionText group kind schema).toList =
      "\x7bkind: CustomResourceDefinition, spec: \x7bgroup: ".toList ++ group.toList ++
        ", names: \x7bkind: ".toList ++ kind.toList ++
          "\x7d, versions: [\x7bname: v, served: true, schema: \x7bopenAPIV3Schema: ".toList ++
            schema.toList ++ "\x7d\x7d]\x7d\x7d".toList := by
  unfold definitionText
  simp only [String.toList_append]

end Collect

end ResourceModels
