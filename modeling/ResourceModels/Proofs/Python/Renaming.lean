import ResourceModels.Proofs.Go.SharedDocument
import ResourceModels.Proofs.OpenApi
import ResourceModels.Proofs.Python.Distribution

/-!
# Components under reversed groups

The components of a document that are not shared are those of a kind and of its list. A group and
its reverse have one length, so a new name either is that of no component yet or changes nothing,
and the document that is staged is the one where all these components are renamed at once.
-/

namespace ResourceModels.Python

open FileStore (lookup?)
open Extract (describe kindName listName)

/-- A component of a group and version under the reversed group; other names stay. -/
def reversedName (group version name : String) : String :=
  match Text.after? (group ++ "." ++ version ++ ".") name with
  | some kind => componentName (reverseGroup group) version kind
  | none => name

/-- The components of a document that are not shared. -/
def ownNames (doc : OpenApi) : List String :=
  (Dict.keys doc.schemas).filter fun name => !Vocabulary.isShared name

/-- A document without paths, with its own components under the reversed group. -/
def handed (group version : String) (doc : OpenApi) : OpenApi :=
  { doc.renameAll (ownNames doc) (reversedName group version) with paths := [] }

/-- A resource whose components in a version are not shared, neither before nor after. -/
structure Unshared (r : ResourceDefinition) (version : String) : Prop where
  own : ∀ name ∈ [kindName r version, listName r version], Vocabulary.isShared name = false
  reversed : ∀ name ∈ [kindName r version, listName r version],
    Vocabulary.isShared (reversedName r.group version name) = false

section

variable {group version kind : String}

theorem componentName_eq_append (group version kind : String) :
    componentName group version kind = group ++ "." ++ version ++ "." ++ kind := rfl

theorem reversedName_componentName (group version kind : String) :
    reversedName group version (componentName group version kind) =
      componentName (reverseGroup group) version kind := by
  rw [reversedName, Text.after?_eq_some.mpr (componentName_eq_append group version kind)]

theorem renameOne_componentName (group version kind : String) (doc : OpenApi) :
    renameOne group version doc (componentName group version kind) =
      doc.renameComponent (componentName group version kind)
        (reversedName group version (componentName group version kind)) := by
  rw [reversedName_componentName, renameOne,
    Text.after?_eq_some.mpr (componentName_eq_append group version kind)]
  rfl

theorem length_reverseGroup (group : String) : (reverseGroup group).length = group.length := by
  rw [reverseGroup, Text.length_join_reverse]
  exact congrArg String.length (Text.join_split '.' group)

/-- Names under a group and under its reverse can only be the same if the group is its reverse. -/
theorem reverseGroup_eq_self {kind' : String}
    (h : componentName (reverseGroup group) version kind = componentName group version kind') :
    reverseGroup group = group := by
  have hlist := congrArg String.toList h
  simp only [componentName, String.toList_append, List.append_assoc] at hlist
  refine String.toList_inj.mp (List.append_inj_left hlist ?_)
  rw [String.length_toList, String.length_toList, length_reverseGroup]

end

section

variable {r : ResourceDefinition} {version : String} {root : Schema}

theorem mem_ownNames (h : Unshared r version) {name : String} :
    name ∈ ownNames (describe r version root) ↔
      name ∈ [kindName r version, listName r version] := by
  rw [ownNames, List.mem_filter, Extract.mem_keys_describe, List.mem_pair]
  constructor
  · rintro ⟨hname | hname | hname, hown⟩
    · exact .inl hname
    · exact .inr hname
    · simp [Go.isShared_of_mem_vocabulary name hname] at hown
  · intro hname
    exact ⟨hname.imp_right .inl, by simp [h.own name (List.mem_pair.mpr hname)]⟩

theorem exists_componentName_of_mem {name : String}
    (h : name ∈ [kindName r version, listName r version]) :
    ∃ kind, name = componentName r.group version kind := by
  rcases List.mem_pair.mp h with rfl | rfl
  · exact ⟨_, rfl⟩
  · exact ⟨_, rfl⟩

theorem sorted_describe (r : ResourceDefinition) (version : String) (root : Schema) :
    Dict.Sorted (describe r version root).schemas := by
  rw [Extract.schemas_describe]
  exact (Dict.sorted_ofList _).insertAll _

theorem fresh_ownNames (h : Unshared r version) : OpenApi.Fresh (describe r version root)
    (ownNames (describe r version root)) (reversedName r.group version) where
  nodup := (sorted_describe r version root).keys_nodup.filter _
  present name hname := (List.mem_filter.mp hname).1
  fresh name hname := by
    rw [mem_ownNames h] at hname
    obtain ⟨kind, rfl⟩ := exists_componentName_of_mem hname
    refine or_iff_not_imp_right.mpr fun hmem => ?_
    rw [not_not, Extract.mem_keys_describe, ← or_assoc, ← List.mem_pair] at hmem
    rcases hmem with hmem | hmem
    · obtain ⟨kind', hkind'⟩ := exists_componentName_of_mem hmem
      rw [reversedName_componentName] at hkind' ⊢
      rw [reverseGroup_eq_self hkind']
    · have hshared := Go.isShared_of_mem_vocabulary _ hmem
      rw [h.reversed _ hname] at hshared
      cases hshared
  apart name hname other hother heq := by
    rw [mem_ownNames h] at hname hother
    obtain ⟨kind, rfl⟩ := exists_componentName_of_mem hname
    obtain ⟨kind', rfl⟩ := exists_componentName_of_mem hother
    rw [reversedName_componentName, reversedName_componentName, componentName, componentName,
      String.append_right_inj] at heq
    rw [heq]

theorem schemas_handed (group version : String) (doc : OpenApi) :
    (handed group version doc).schemas =
      (doc.renameAll (ownNames doc) (reversedName group version)).schemas := rfl

/-- The document for a version is staged without paths and with its own components renamed, all at
once; none of its components is lost. -/
structure RenamedAtOnce (r : ResourceDefinition) (version : String) (doc : OpenApi) : Prop where
  document : prepare r.group version doc = handed r.group version doc
  components : (handed r.group version doc).schemas.Perm
    (doc.schemas.map (OpenApi.renamed (ownNames doc) (reversedName r.group version)))

theorem renamedAtOnce_describe (h : Unshared r version) :
    RenamedAtOnce r version (describe r version root) := by
  obtain ⟨hall, hperm⟩ := OpenApi.foldl_renameComponent (sorted_describe r version root)
    (fresh_ownNames h)
  have hsteps : ∀ (doc : OpenApi), ∀ name ∈ ownNames (describe r version root),
      renameOne r.group version doc name =
        doc.renameComponent name (reversedName r.group version name) := by
    intro doc name hname
    obtain ⟨kind, rfl⟩ := exists_componentName_of_mem ((mem_ownNames h).mp hname)
    exact renameOne_componentName _ _ kind doc
  refine ⟨?_, ?_⟩
  · rw [prepare, handed, ← hall]
    exact congrArg (fun doc : OpenApi => { doc with paths := [] }) (List.foldl_ext _ _ _ hsteps)
  · rw [schemas_handed]
    exact hperm

theorem renamedAtOnce_of_mem {documents : Dict OpenApi} (h : r.documents = .ok documents)
    {d : String × OpenApi} (hd : d ∈ documents) (hown : Unshared r d.1) :
    RenamedAtOnce r d.1 d.2 := by
  obtain ⟨v, _, root, _, rfl⟩ := ResourceDefinition.exists_version_of_mem h hd
  exact renamedAtOnce_describe hown

end

/-- The path of the document of a resource for a version. -/
def documentPath? (r : ResourceDefinition) (version : String) : Option String :=
  (Path.normalizeFile (documentName r.group version r.names.kind)).toOption

theorem exists_documents_of_extracts {s : Staged} {own : List Extract}
    (h : Collect.extracts s = .ok own) : ∃ documents, s.definition.documents = .ok documents ∧
      own = documents.map fun d =>
        ⟨s.definition.group, s.definition.names.kind, d.1, s.source, d.2⟩ := by
  simp only [Collect.extracts, Outcome.bind_eq_ok, Outcome.pure_eq_ok] at h
  obtain ⟨documents, hdocuments, hown⟩ := h
  exact ⟨documents, hdocuments, hown.symm⟩

section

variable {σ : Type} [FileStore σ] {files : σ} {exclude : List String} {t : FileTree}

/-- Every document of a resource is staged at a path, and every file that is staged is the text of
such a document. Where the names of a kind and of its list are shared neither before nor after, the
text is that of the document with its own components renamed at once. -/
theorem stage_renamedAtOnce (h : stage files exclude = .ok t) :
    ∃ staged, Collect.resources files exclude = .ok staged ∧
      (∀ s ∈ staged, ∃ documents, s.definition.documents = .ok documents ∧ ∀ d ∈ documents,
        (∃ path ∈ documentPath? s.definition d.1, (lookup? t path).isSome) ∧
          (Unshared s.definition d.1 → RenamedAtOnce s.definition d.1 d.2)) ∧
      ∀ path entry, lookup? t path = some entry → ∃ s ∈ staged, ∃ documents,
        s.definition.documents = .ok documents ∧ ∃ d ∈ documents,
          documentPath? s.definition d.1 = some path ∧
            entry = FileTree.textEntry (prepare s.definition.group d.1 d.2).toYaml := by
  obtain ⟨extracts, hd, hw⟩ := stage_eq_ok.mp h
  simp only [Collect.documents, Outcome.bind_eq_ok, Outcome.pure_eq_ok] at hd
  obtain ⟨staged, hstaged, found, hfound, rfl⟩ := hd
  have hforall := Outcome.mapM_eq_ok.mp hfound
  refine ⟨staged, hstaged, fun s hs => ?_, fun path entry hentry => ?_⟩
  · obtain ⟨own, hown, hextracts⟩ := Outcome.exists_of_mem_forall₂ hforall.flip hs
    obtain ⟨documents, hdocuments, rfl⟩ := exists_documents_of_extracts hextracts
    refine ⟨documents, hdocuments, fun d hd => ⟨?_, renamedAtOnce_of_mem hdocuments hd⟩⟩
    have hmem := List.mem_flatten.mpr ⟨_, hown, List.mem_map_of_mem hd⟩
    obtain ⟨path, hpath, hsome⟩ :=
      FileTree.isSome_lookup?_of_writeTexts hw (List.mem_map_of_mem hmem)
    exact ⟨path, Outcome.toOption_eq_some.mpr hpath, hsome⟩
  · obtain ⟨file, hfile, hpath, rfl⟩ := FileTree.exists_file_of_lookup? hw hentry
    obtain ⟨e, he, rfl⟩ := List.mem_map.mp hfile
    obtain ⟨own, hown, he⟩ := List.mem_flatten.mp he
    obtain ⟨s, hs, hextracts⟩ := Outcome.exists_of_mem_forall₂ hforall hown
    obtain ⟨documents, hdocuments, rfl⟩ := exists_documents_of_extracts hextracts
    obtain ⟨d, hd, rfl⟩ := List.mem_map.mp he
    exact ⟨s, hs, documents, hdocuments, d, hd, Outcome.toOption_eq_some.mpr hpath, rfl⟩

end

/-- Kind `C` in a group of two labels. -/
def dottedGroup : FileTree :=
  .ofEntries [("a.yaml", Collect.definitionFile "b.a" "C" "\x7b\x7d")]

/-- There are resources, each with a version, and all are of the group and kind. -/
def isDottedGroup : Except DefinitionError (List Staged) → Bool
  | .ok staged => !staged.isEmpty && staged.all fun s =>
      s.definition.group == "b.a" && s.definition.names.kind == "C" &&
        s.definition.names.listKindName == "CList" &&
        (s.definition.servedVersions.map fun v => (v.name, v.schema?.isSome)) == [("v", true)]
  | .error _ => false

theorem holdTexts_dottedGroup :
    Collect.HoldTexts dottedGroup []
      [("a.yaml", Collect.definitionText "b.a" "C" "\x7b\x7d")] :=
  Collect.holdTexts_ofEntries (.refl _) (by decide) (by decide) (by decide)

theorem dottedGroup_evaluated : isDottedGroup (Collect.resources dottedGroup []) = true := by
  rw [holdTexts_dottedGroup.resources_eq]
  simp only [Collect.charsOf, List.map_cons, List.map_nil, Collect.toList_definitionText,
    String.reduceToList]
  decide +kernel

theorem exists_of_isDottedGroup {resources : Except DefinitionError (List Staged)}
    (h : isDottedGroup resources = true) :
    ∃ staged, resources = .ok staged ∧ staged ≠ [] ∧ ∀ s ∈ staged,
      s.definition.group = "b.a" ∧ s.definition.names.kind = "C" ∧
        s.definition.names.listKindName = "CList" ∧
        s.definition.servedVersions.map (fun v => (v.name, v.schema?.isSome)) = [("v", true)] := by
  cases resources with
  | error fault => cases h
  | ok staged =>
    simp only [isDottedGroup, Bool.and_eq_true, List.all_eq_true, beq_iff_eq, and_assoc] at h
    exact ⟨staged, rfl, by simpa using h.1, h.2⟩

theorem exists_stage_dottedGroup : ∃ t, stage dottedGroup [] = .ok t := by
  obtain ⟨staged, hstaged, _, hnames⟩ := exists_of_isDottedGroup dottedGroup_evaluated
  have hnamed : ∀ s ∈ staged, s.definition.group ≠ "" ∧ s.definition.names.kind ≠ "" := by
    intro s hs
    obtain ⟨hgroup, hkind, _⟩ := hnames s hs
    rw [hgroup, hkind]
    decide
  have hd := Collect.documents_eq_own hstaged hnamed
  have hpaths : ∀ file ∈ ((staged.flatMap Collect.ownExtracts).map Extract.withVocabulary).map
      stagedText, ∃ key, Path.normalizeFile file.1 = .ok key := by
    intro file hfile
    obtain ⟨e, he, rfl⟩ := List.mem_map.mp hfile
    obtain ⟨_, hstaged', s, hs, _, v, hv, _, _, rfl⟩ := Collect.exists_staged_of_mem hd he
    cases hstaged.symm.trans hstaged'
    obtain ⟨hgroup, hkind, _, hversions⟩ := hnames s hs
    have hversion := List.mem_map_of_mem (f := fun v => (v.name, v.schema?.isSome)) hv
    rw [hversions, List.mem_singleton, Prod.mk.injEq] at hversion
    rw [stagedText, hgroup, hkind, hversion.1]
    have hfile : Path.normalizeFile (documentName "b.a" "v" "C") = .ok "b_a_v_c.yaml" := by decide
    exact ⟨_, hfile⟩
  obtain ⟨t, ht⟩ := FileTree.exists_writeTexts hpaths ∅
  exact ⟨t, stage_eq_ok.mpr ⟨_, hd, ht⟩⟩

theorem dottedGroup_renamedAtOnce :
    ∃ t staged, stage dottedGroup [] = .ok t ∧ Collect.resources dottedGroup [] = .ok staged ∧
      ∃ s ∈ staged, ∃ documents, s.definition.documents = .ok documents ∧ ∃ d ∈ documents,
        Unshared s.definition d.1 ∧ RenamedAtOnce s.definition d.1 d.2 := by
  obtain ⟨t, ht⟩ := exists_stage_dottedGroup
  obtain ⟨staged, hstaged, hdocuments, _⟩ := stage_renamedAtOnce ht
  obtain ⟨_, hstaged', hne, hnames⟩ := exists_of_isDottedGroup dottedGroup_evaluated
  cases hstaged.symm.trans hstaged'
  obtain ⟨s, hs⟩ := List.exists_mem_of_ne_nil staged hne
  obtain ⟨hgroup, hkind, hlist, hversions⟩ := hnames s hs
  obtain ⟨documents, hok, hall⟩ := hdocuments s hs
  have hversion : ("v", true) ∈
      s.definition.servedVersions.map fun v => (v.name, v.schema?.isSome) := by
    rw [hversions]
    exact List.mem_singleton_self _
  obtain ⟨v, hv, hpair⟩ := List.mem_map.mp hversion
  rw [Prod.mk.injEq] at hpair
  have hkey := (ResourceDefinition.mem_keys_documents hok).mpr ⟨v, hv, hpair.2, hpair.1⟩
  obtain ⟨d, hd, hname⟩ := List.mem_map.mp hkey
  have hown : Unshared s.definition d.1 := by
    rw [hname]
    constructor
    · simp only [kindName, listName, hgroup, hkind, hlist]
      decide
    · simp only [kindName, listName, hgroup, hkind, hlist]
      decide
  exact ⟨t, staged, ht, hstaged, s, hs, documents, hok, d, hd, hown, (hall d hd).2 hown⟩

/-- A resource whose components have names that begin like those of the vocabulary. -/
def machinery : ResourceDefinition :=
  { group := "io.k8s"
    names := { kind := "A" }
    versions := [{ name := "apimachinery", served := true, validation := some ⟨some {}⟩ }] }

theorem unshared_machinery : Unshared machinery "apimachinery" := ⟨by decide, by decide⟩

theorem reversedName_vocabulary_ne : ∀ name ∈ Vocabulary.schemas.keys,
    reversedName machinery.group "apimachinery" name ≠ Vocabulary.nameOf "Time" := by
  intro name hname
  have hmem := Dict.mem_keys_ofList.mp hname
  simp only [List.map_cons, List.map_nil, List.mem_cons, List.not_mem_nil, or_false] at hmem
  rcases hmem with rfl | rfl | rfl | rfl | rfl | rfl <;> decide

/-- The vocabulary keeps its names, also where they begin with the group and version. -/
theorem machinery_vocabulary_stays :
    Unshared machinery "apimachinery" ∧ ∃ doc, machinery.documents = .ok [("apimachinery", doc)] ∧
      prepare machinery.group "apimachinery" doc ≠
        { doc.renameAll doc.schemas.keys (reversedName machinery.group "apimachinery") with
          paths := [] } := by
  refine ⟨unshared_machinery, describe machinery "apimachinery" {}, rfl, fun heq => ?_⟩
  have htime : Vocabulary.nameOf "Time" ∈ Vocabulary.schemas.keys :=
    Dict.mem_keys_ofList.mpr (by simp)
  have hkey : Vocabulary.nameOf "Time" ∈
      (prepare machinery.group "apimachinery" (describe machinery "apimachinery" {})).schemas.keys := by
    rw [(renamedAtOnce_describe unshared_machinery).document, schemas_handed,
      OpenApi.mem_keys_renameAll]
    refine ⟨_, (Extract.mem_keys_describe ..).mpr (.inr (.inr htime)), if_neg fun hown => ?_⟩
    have hshared := (List.mem_filter.mp hown).2
    rw [Go.isShared_nameOf] at hshared
    cases hshared
  rw [heq] at hkey
  dsimp only at hkey
  obtain ⟨name, hname, hnew⟩ := OpenApi.mem_keys_renameAll.mp hkey
  rw [OpenApi.newName, if_pos hname] at hnew
  rcases (Extract.mem_keys_describe ..).mp hname with rfl | rfl | hname
  · exact absurd hnew (by decide)
  · exact absurd hnew (by decide)
  · exact reversedName_vocabulary_ne name hname hnew

end ResourceModels.Python
