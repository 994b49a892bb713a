import ResourceModels.Go
import ResourceModels.Proofs.Collect
import ResourceModels.Proofs.Go.ExportedNames
import ResourceModels.Proofs.Go.Preparation
import ResourceModels.Proofs.Go.Success

/-!
# The document of the shared package

The shared package is written for the shared components of all documents. Every document has the
whole vocabulary, so unless a kind is itself named like a shared component the shared package is
written for the vocabulary, whatever else the documents have.
-/

namespace ResourceModels.Go

theorem mem_sharedDocument {documents : List OpenApi} {c : String × Schema}
    (h : c ∈ (sharedDocument documents).schemas) :
    ∃ doc ∈ documents, c ∈ doc.schemas ∧ Vocabulary.isShared c.1 = true := by
  rcases Dict.mem_insertMissing h with h | h
  · cases h
  · obtain ⟨hc, hshared⟩ := List.mem_filter.mp h
    obtain ⟨doc, hdoc, hc⟩ := List.mem_flatMap.mp hc
    exact ⟨doc, hdoc, hc, hshared⟩

/-- What holds of the components of all documents holds of those of the shared one. -/
theorem forall_mem_sharedDocument {P : String × Schema → Prop} {extracts : List Extract}
    (h : ∀ e ∈ extracts, ∀ c ∈ e.document.schemas, P c) :
    ∀ c ∈ (sharedDocument (extracts.map (·.document))).schemas, P c := by
  intro c hc
  obtain ⟨doc, hdoc, hc, _⟩ := mem_sharedDocument hc
  obtain ⟨e, he, rfl⟩ := List.mem_map.mp hdoc
  exact h e he c hc

theorem sorted_sharedDocument (documents : List OpenApi) :
    Dict.Sorted (sharedDocument documents).schemas := Dict.sorted_insertMissing .nil _

theorem mem_keys_sharedDocument {documents : List OpenApi} {doc : OpenApi} (hdoc : doc ∈ documents)
    {component : String} (h : component ∈ Dict.keys doc.schemas)
    (hshared : Vocabulary.isShared component = true) :
    component ∈ Dict.keys (sharedDocument documents).schemas := by
  obtain ⟨c, hc, rfl⟩ := List.mem_map.mp h
  refine Dict.mem_keys_insertMissing.mpr (.inr (List.mem_map_of_mem ?_))
  exact List.mem_filter.mpr ⟨List.mem_flatMap.mpr ⟨doc, hdoc, hc⟩, hshared⟩

def vocabularyDocument : OpenApi :=
  { title := "io.k8s.apimachinery.pkg.apis.meta.v1", revision := "v1"
    schemas := Vocabulary.schemas }

theorem sorted_vocabulary : Dict.Sorted Vocabulary.schemas := Dict.sorted_ofList _

theorem isShared_nameOf (type : String) : Vocabulary.isShared (Vocabulary.nameOf type) = true := by
  rw [Vocabulary.isShared, Vocabulary.nameOf, String.append_assoc]
  exact Text.contains_append _ _

theorem isShared_of_mem_vocabulary :
    ∀ name ∈ Dict.keys Vocabulary.schemas, Vocabulary.isShared name = true := by
  intro name hname
  have hmem := Dict.mem_keys_ofList.mp hname
  simp only [List.map_cons, List.map_nil, List.mem_cons, List.not_mem_nil, or_false] at hmem
  rcases hmem with rfl | rfl | rfl | rfl | rfl | rfl <;> exact isShared_nameOf _

/-- A component of the vocabulary has the schema of the vocabulary in every document. -/
theorem mem_vocabulary_of_mem_describe {r : ResourceDefinition} {version : String} {root : Schema}
    {c : String × Schema} (h : c ∈ (Extract.describe r version root).schemas)
    (hname : c.1 ∈ Dict.keys Vocabulary.schemas) : c ∈ Vocabulary.schemas := by
  rw [Extract.schemas_describe] at h
  exact Dict.mem_of_mem_insertAll (Dict.sorted_ofList _) h hname

/-- What is prepared for a kind does not depend on the vocabulary. -/
theorem prepare_withVocabulary (doc : OpenApi) : prepare doc.withVocabulary = prepare doc := by
  have hown : (doc.withVocabulary.schemas.filter fun c => !Vocabulary.isShared c.1) =
      doc.schemas.filter fun c => !Vocabulary.isShared c.1 :=
    Dict.filter_insertAll (fun name => !Vocabulary.isShared name) doc.schemas fun c hc => by
      rw [isShared_of_mem_vocabulary c.1 (List.mem_map_of_mem hc), Bool.not_true]
  have hschemas : (prepare doc.withVocabulary).schemas = (prepare doc).schemas := by
    simp only [schemas_prepare, schemas_prepareShared, Dict.mapValues, List.filter_map]
    exact congrArg _ (congrArg _ hown)
  exact congrArg (fun schemas => { prepare doc with schemas := schemas }) hschemas

/-- Where no document has shared components of its own, the shared document is the vocabulary. -/
theorem sharedDocument_eq {σ : Type} [FileStore σ] {files : σ} {exclude : List String}
    {extracts : List Extract} (h : Collect.documents files exclude = .ok extracts)
    (hne : extracts ≠ [])
    (hown : ∀ e ∈ extracts, ∀ name ∈ Dict.keys e.document.schemas,
      Vocabulary.isShared name = true → name ∈ Dict.keys Vocabulary.schemas) :
    sharedDocument (extracts.map (·.document)) = vocabularyDocument := by
  have hmem : ∀ c ∈ (sharedDocument (extracts.map (·.document))).schemas,
      c ∈ Vocabulary.schemas := by
    intro c hc
    obtain ⟨_, hdoc, hc, hshared⟩ := mem_sharedDocument hc
    obtain ⟨e, he, rfl⟩ := List.mem_map.mp hdoc
    have hname := hown e he c.1 (List.mem_map_of_mem hc) hshared
    obtain ⟨_, _, s, _, _, v, _, root, _, rfl⟩ := Collect.exists_staged_of_mem h he
    exact mem_vocabulary_of_mem_describe hc hname
  have hkeys : ∀ name ∈ Dict.keys Vocabulary.schemas,
      name ∈ Dict.keys (sharedDocument (extracts.map (·.document))).schemas := by
    intro name hname
    obtain ⟨e, he⟩ := List.exists_mem_of_ne_nil extracts hne
    refine mem_keys_sharedDocument (List.mem_map_of_mem he) ?_
      (isShared_of_mem_vocabulary name hname)
    obtain ⟨_, _, s, _, _, v, _, root, _, rfl⟩ := Collect.exists_staged_of_mem h he
    exact (Extract.mem_keys_describe s.definition v.name root).mpr (.inr (.inr hname))
  have hschemas : (sharedDocument (extracts.map (·.document))).schemas = Vocabulary.schemas := by
    refine Dict.eq_of_pairwise (fun _ _ hab => lt_asymm hab) (sorted_sharedDocument _)
      sorted_vocabulary fun c => ⟨hmem c, fun hc => ?_⟩
    obtain ⟨c', hc', hkey⟩ := List.mem_map.mp (hkeys c.1 (List.mem_map_of_mem hc))
    have hsame := List.inj_on_of_nodup_map sorted_vocabulary.keys_nodup (hmem c' hc') hc hkey
    exact hsame ▸ hc'
  rw [vocabularyDocument, ← hschemas]
  rfl

/-- The shared schemas in order of the names of their types. -/
def sharedSchemas : List (String × Schema) :=
  [("FieldsV1", Vocabulary.fieldsV1), ("ListMeta", Vocabulary.listMeta),
    ("ManagedFieldsEntry", Vocabulary.managedFieldsEntry), ("ObjectMeta", Vocabulary.objectMeta),
    ("OwnerReference", Vocabulary.ownerReference), ("Time", Vocabulary.timeSchema)]

theorem schemas_vocabulary :
    Vocabulary.schemas = sharedSchemas.map fun c => (Vocabulary.nameOf c.1, c.2) := by
  have hsorted : Dict.Sorted (sharedSchemas.map fun c => (Vocabulary.nameOf c.1, c.2)) := by
    refine List.pairwise_map.mp (List.isChain_iff_pairwise.mp ?_)
    rw [List.map_map]
    decide +kernel
  exact (hsorted.eq_ofList_of_perm ((List.perm_append_singleton _ _).symm.trans
    (((List.Perm.swap _ _ _).cons _).trans (List.Perm.swap _ _ _)))).symm

/-- A shared schema gives its type the name it has there. -/
theorem shortName_sharedSchemas :
    ∀ c ∈ sharedSchemas, shortName (Vocabulary.nameOf c.1) = c.1 := by
  intro c hc
  simp only [sharedSchemas, List.mem_cons, List.not_mem_nil, or_false] at hc
  rcases hc with rfl | rfl | rfl | rfl | rfl | rfl <;>
  · rw [Vocabulary.nameOf, shortName_dotted (by decide) (by decide), if_pos (by decide)]
    decide

theorem schemas_prepareShared_vocabulary : (prepareShared vocabularyDocument).schemas =
    sharedSchemas.map fun c =>
      (Vocabulary.nameOf c.1, Schema.mapKeywords readied (named c.1 c.2)) := by
  rw [schemas_prepareShared, vocabularyDocument, schemas_vocabulary, List.map_map]
  refine List.map_congr_left fun c hc => ?_
  rw [Function.comp_apply, shortName_sharedSchemas c hc]

theorem emittable_vocabulary : Emittable (prepareShared vocabularyDocument) := by
  unfold Emittable
  rw [schemas_prepareShared_vocabulary]
  decide +kernel

end ResourceModels.Go
