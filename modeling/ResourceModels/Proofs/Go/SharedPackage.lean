import ResourceModels.Proofs.Go.Shared

/-!
# The shared package of a tree

The shared package has a type for every shared component of every document, unless a kind is written
to its path. References are not compared with its types, so the types that kinds take from it are
declared there exactly if the documents refer to nothing else.
-/

namespace ResourceModels.Go

open FileStore (lookup?)

theorem extension?_readied {key : String} (h : typeKey ≠ key) (k : Keywords) :
    (readied k).extension? key = k.extension? key := by
  rw [readied]
  split
  · exact (extension?_setExtension ..).trans (if_neg h)
  · rfl

theorem wantedName_prepareShared {doc : OpenApi} {c : String × Schema}
    (hc : c ∈ (prepareShared doc).schemas) (hint : String) :
    Emission.wantedName c.2.keywords hint = shortName c.1 := by
  rw [schemas_prepareShared] at hc
  obtain ⟨own, _, rfl⟩ := List.mem_map.mp hc
  have hkeywords : (Schema.mapKeywords readied (named (shortName own.1) own.2)).keywords =
      readied (Keywords.withTypeName own.2.keywords (shortName own.1)) := by
    rw [Schema.mapKeywords, Schema.mapNodes_eq_withParts]
    rfl
  have hname : (readied (Keywords.withTypeName own.2.keywords (shortName own.1))).extension?
      typeNameKey = some (.str (shortName own.1)) := by
    rw [extension?_readied (by decide), Keywords.withTypeName, extension?_setExtension, if_pos rfl]
  rw [Emission.wantedName, hkeywords, Keywords.extensionText?, hname]
  rfl

theorem keys_prepareShared (doc : OpenApi) :
    Dict.keys (prepareShared doc).schemas = Dict.keys doc.schemas := by
  rw [schemas_prepareShared, Dict.keys, Dict.keys, List.map_map]
  rfl

/-- Every component of the shared document has a type of its short name. -/
theorem shortName_mem_documentTypes {doc : OpenApi} (hkeys : (Dict.keys doc.schemas).Nodup)
    {component : String} (h : component ∈ Dict.keys doc.schemas) :
    shortName component ∈ (documentTypes (prepareShared doc)).map (·.name) := by
  rw [← keys_prepareShared] at hkeys h
  obtain ⟨c, hc, rfl⟩ := List.mem_map.mp h
  have hwanted := Emission.wantedName_mem_componentNames [] hkeys (by simp [Dict.keys]) hc
  rw [wantedName_prepareShared hc] at hwanted
  exact Emission.mem_documentTypes_of_mem_values hwanted

def sharedPath : String := modelPath "meta.k8s.io" "meta" "v1"

/-- The document of a kind that the file at a path is written for. -/
def kindAt? (extracts : List Extract) (path : String) : Option Extract :=
  (placed (extracts.map fun e => (modelPath e.group e.kind e.version, e))).get? path

theorem preparedAt_eq (extracts : List Extract) (path : String) :
    (preparedAt extracts).get? path =
      ((kindAt? extracts path).map fun e => (prepare e.document, e.version)).or
        (if sharedPath = path then
          some (prepareShared (sharedDocument (extracts.map (·.document))), "v1") else none) := by
  rw [preparedAt, prepared, get?_placed_cons normalizeFile_sharedPath, kindAt?, ← get?_placed_map,
    List.map_map]
  rfl

/-- All types that kinds take from the shared package are declared there. -/
def TypesResolve (extracts : List Extract) : Prop :=
  ∀ path e f, kindAt? extracts path = some e → fileAt? extracts path = some f →
    ∀ name, ⟨some sharedAlias, name⟩ ∈ f.names → name ∈ fileTypes extracts sharedPath

/-- All shared components that the documents of kinds use have a type in the shared package. -/
def TargetsResolve (extracts : List Extract) : Prop :=
  ∀ path e, kindAt? extracts path = some e → ∀ target, DocumentUses e.document target →
    shortName target ∈ preparedTypes extracts sharedPath

theorem mem_names_iff {doc : OpenApi} {package : String} {f : SourceFile}
    (h : emit doc package = .ok f) {qualifier name : String} :
    ⟨some qualifier, name⟩ ∈ f.names ↔
      ∃ source, DocumentTakes doc ⟨some qualifier, name⟩ source := by
  have ha := accountedFor h
  constructor
  · intro hn
    exact (ha.found _ hn).resolve_right fun hown => nomatch hown.1
  · rintro ⟨source, ht⟩
    exact ha.taken _ source ht

variable {extracts : List Extract}

theorem mem_of_kindAt? {path : String} {e : Extract} (h : kindAt? extracts path = some e) :
    e ∈ extracts := by
  obtain ⟨file, hfile, _, rfl⟩ := exists_of_get?_placed h
  obtain ⟨e, he, rfl⟩ := List.mem_map.mp hfile
  exact he

/-- Where all files could be made, names resolve if and only if references do. -/
theorem typesResolve_iff
    (hlack : ∀ e ∈ extracts, ∀ c ∈ e.document.schemas, c.2.Throughout (Keywords.Lacks [typeKey]))
    (hfiles : ∀ path d, (preparedAt extracts).get? path = some d →
      ∃ f, fileAt? extracts path = some f ∧ emit d.1 d.2 = .ok f)
    (htypes : ∀ path, (fileTypes extracts path).Perm (preparedTypes extracts path)) :
    TypesResolve extracts ↔ TargetsResolve extracts := by
  have hnames : ∀ path e f, kindAt? extracts path = some e → fileAt? extracts path = some f →
      ∀ name, ⟨some sharedAlias, name⟩ ∈ f.names ↔
        ∃ target, DocumentUses e.document target ∧ name = shortName target := by
    intro path e f he hf name
    have hat := preparedAt_eq extracts path
    rw [he, Option.map_some, Option.some_or] at hat
    obtain ⟨f', hf', hemit⟩ := hfiles path _ hat
    rw [hf] at hf'
    cases hf'
    rw [mem_names_iff hemit, takesShared_prepare (hlack e (mem_of_kindAt? he))]
  constructor
  · intro h path e he target huses
    have hat := preparedAt_eq extracts path
    rw [he, Option.map_some, Option.some_or] at hat
    obtain ⟨f, hf, _⟩ := hfiles path _ hat
    have hname := (hnames path e f he hf (shortName target)).mpr ⟨target, huses, rfl⟩
    exact (htypes sharedPath).mem_iff.mp (h path e f he hf _ hname)
  · intro h path e f he hf name hname
    obtain ⟨target, huses, rfl⟩ := (hnames path e f he hf name).mp hname
    exact (htypes sharedPath).mem_iff.mpr (h path e he target huses)

/-- Without a kind at its path, the shared package has the shared components of all documents. -/
theorem shortName_mem_preparedTypes (hfree : kindAt? extracts sharedPath = none) {e : Extract}
    (he : e ∈ extracts) {component : String} (hc : component ∈ Dict.keys e.document.schemas)
    (hshared : Vocabulary.isShared component = true) :
    shortName component ∈ preparedTypes extracts sharedPath := by
  have hkey : component ∈ Dict.keys (sharedDocument (extracts.map (·.document))).schemas :=
    mem_keys_sharedDocument (List.mem_map_of_mem he) hc hshared
  have hat := preparedAt_eq extracts sharedPath
  rw [hfree, Option.map_none, Option.none_or, if_pos rfl] at hat
  rw [preparedTypes, hat]
  exact shortName_mem_documentTypes (sorted_sharedDocument _).keys_nodup hkey

section

variable {σ : Type} [FileStore σ] {files : σ} {exclude : List String} {t : FileTree}

/-- What stands in a generated tree. -/
theorem exists_files_of_generate (h : generate files exclude = .ok (some t)) :
    ∃ extracts, Collect.documents files exclude = .ok extracts ∧
      (∀ path, Text.endsWith ".go" path = true →
        lookup? t path = (fileAt? extracts path).map fun f => FileTree.textEntry f.text) ∧
      (∀ path d, (preparedAt extracts).get? path = some d →
        ∃ f, fileAt? extracts path = some f ∧ emit d.1 d.2 = .ok f) ∧
      ∀ path, (fileTypes extracts path).Perm (preparedTypes extracts path) := by
  obtain ⟨extracts, hd, t₀, h₀, ht⟩ := generate_ok h
  obtain ⟨written, hwritten, _⟩ := writeSources_ok ht
  refine ⟨extracts, hd, fun path hp => ?_, fun path => (fileAt?_eq hwritten path).2,
    fileTypes_perm hwritten⟩
  refine lookup?_generate h₀ ht ?_
  rintro rfl
  exact absurd hp (by decide)

/-- Where no definition spells out a Go type, the types that kinds take from the shared package are
declared there if and only if the package has a type for every shared component that the documents
use. Kinds themselves declare no shared component, and the package has all shared components of all
documents unless a kind goes to its path. -/
theorem generate_typesResolve_iff (h : generate files exclude = .ok (some t))
    (hlack : Collect.SchemasLack [typeKey] files exclude) :
    ∃ extracts, Collect.documents files exclude = .ok extracts ∧
      (∀ path, Text.endsWith ".go" path = true →
        lookup? t path = (fileAt? extracts path).map fun f => FileTree.textEntry f.text) ∧
      (∀ path e, kindAt? extracts path = some e → ∃ f, fileAt? extracts path = some f ∧
        f.typeNames.Perm ((documentTypes (prepare e.document)).map (·.name)) ∧
        (prepare e.document).schemas.keys =
          e.document.schemas.keys.filter fun name => !Vocabulary.isShared name) ∧
      (kindAt? extracts sharedPath = none → ∀ e ∈ extracts,
        ∀ component ∈ Dict.keys e.document.schemas, Vocabulary.isShared component = true →
          shortName component ∈ fileTypes extracts sharedPath) ∧
      (TypesResolve extracts ↔ TargetsResolve extracts) := by
  obtain ⟨extracts, hd, hlookup, hfiles, htypes⟩ := exists_files_of_generate h
  refine ⟨extracts, hd, hlookup, fun path e he => ?_, fun hfree e he component hc hshared => ?_, ?_⟩
  · have hat := preparedAt_eq extracts path
    rw [he, Option.map_some, Option.some_or] at hat
    obtain ⟨f, hf, hemit⟩ := hfiles path _ hat
    exact ⟨f, hf, typeNames_perm_documentTypes hemit, keys_prepare e.document⟩
  · exact (htypes sharedPath).mem_iff.mpr (shortName_mem_preparedTypes hfree he hc hshared)
  · refine typesResolve_iff (fun e he c hc => ?_) hfiles htypes
    exact Collect.throughout_of_documents hd hlack (by decide) he hc

end

theorem nestedAndKind_typesResolve_iff :
    ∃ t extracts, generate nestedAndKind [] = .ok (some t) ∧
      Collect.SchemasLack [typeKey] nestedAndKind [] ∧
      Collect.documents nestedAndKind [] = .ok extracts ∧
        (TypesResolve extracts ↔ TargetsResolve extracts) := by
  obtain ⟨t, ht⟩ := exists_generate_nestedAndKind
  have hlack : Collect.SchemasLack [typeKey] nestedAndKind [] :=
    nestedAndKind_lacks.mono (by decide)
  obtain ⟨extracts, hd, _, _, _, hiff⟩ := generate_typesResolve_iff ht hlack
  exact ⟨t, extracts, ht, hlack, hd, hiff⟩

/-- A shared component that there is no schema of. -/
def missingComponent : String := Vocabulary.nameOf "Nope"

/-- Kind `A` has a property of a shared type that there is not. -/
def danglingReference : FileTree :=
  .ofEntries
    [("a.yaml", Collect.definitionFile "a" "A"
        ("\x7bproperties: \x7bb: \x7b$ref: '" ++ Schema.componentRef missingComponent
          ++ "'\x7d\x7d\x7d"))]

/-- The kinds can be written, and the one at a path refers to a shared component itself. -/
def isUsedAt (path target : String) : Except DefinitionError (List Extract) → Bool
  | .ok extracts =>
    !extracts.isEmpty && (extracts.all fun e => decide (Writable e)) &&
      (kindAt? extracts sharedPath).isNone &&
      (kindAt? extracts path).any fun e => e.document.schemas.any fun c =>
        !Vocabulary.isShared c.1 &&
          (Emission.componentParts c.2).any fun part => sharedTarget? part = some target
  | .error _ => false

theorem exists_of_isUsedAt {path target : String}
    {documents : Except DefinitionError (List Extract)}
    (h : isUsedAt path target documents = true) :
    ∃ extracts, documents = .ok extracts ∧ extracts ≠ [] ∧ (∀ e ∈ extracts, Writable e) ∧
      kindAt? extracts sharedPath = none ∧
        ∃ e, kindAt? extracts path = some e ∧ DocumentUses e.document target := by
  cases documents with
  | error fault => cases h
  | ok extracts =>
    simp only [isUsedAt, Bool.and_eq_true, Option.any_eq_true, List.any_eq_true, List.all_eq_true,
      Bool.not_eq_eq_eq_not, Bool.not_true, decide_eq_true_eq, List.isEmpty_eq_false_iff,
      Option.isNone_iff_eq_none] at h
    obtain ⟨⟨⟨hne, hwritable⟩, hfree⟩, e, he, c, hc, hown, part, hp, htarget⟩ := h
    exact ⟨extracts, rfl, hne, hwritable, hfree, e, he, c, hc, hown, part, hp, .here htarget⟩

theorem kindAt?_withVocabulary (own : List Extract) (path : String) :
    kindAt? (own.map Extract.withVocabulary) path =
      (kindAt? own path).map Extract.withVocabulary := by
  rw [kindAt?, kindAt?, ← get?_placed_map, List.map_map, List.map_map]
  exact congrArg (fun l => (placed l).get? path) (List.map_congr_left fun _ _ => rfl)

/-- A component that is no shared one stays as it is when the vocabulary is put in. -/
theorem OwnWritable.mem_withVocabulary {e : Extract} (h : OwnWritable e) {c : String × Schema}
    (hc : c ∈ e.document.schemas) :
    c ∈ e.withVocabulary.document.schemas ∧ Vocabulary.isShared c.1 = false := by
  have hunshared := h.unshared c.1 (List.mem_map_of_mem hc)
  refine ⟨?_, hunshared⟩
  rw [Extract.schemas_withVocabulary]
  refine Dict.mem_insertAll_of_notMem hc fun hkey => ?_
  have hshared := isShared_of_mem_vocabulary c.1 hkey
  exact absurd (hshared.symm.trans hunshared) (by decide)

/-- The same, before the vocabulary is put in. -/
def ownIsUsedAt (path target : String) (own : List Extract) : Bool :=
  !own.isEmpty && (own.all fun e => decide (OwnWritable e)) &&
    (kindAt? own sharedPath).isNone &&
    (kindAt? own path).any fun e => e.document.schemas.any fun c =>
      (Emission.componentParts c.2).any fun part => sharedTarget? part = some target

theorem isUsedAt_of_own {σ : Type} [FileStore σ] {files : σ} {exclude : List String}
    {path target : String}
    (h : Collect.ownHold (ownIsUsedAt path target) (Collect.resources files exclude) = true) :
    isUsedAt path target (Collect.documents files exclude) = true := by
  obtain ⟨own, hd, hown⟩ := Collect.exists_of_ownHold h
  simp only [ownIsUsedAt, Bool.and_eq_true, Option.any_eq_true, List.any_eq_true,
    List.all_eq_true, decide_eq_true_eq, Option.isNone_iff_eq_none] at hown
  obtain ⟨⟨⟨hne, hwritable⟩, hfree⟩, e, he, c, hc, hused⟩ := hown
  obtain ⟨hmem, hunshared⟩ := (hwritable e (mem_of_kindAt? he)).mem_withVocabulary hc
  have hall : ∀ e ∈ own, Writable e.withVocabulary := fun e he => (hwritable e he).writable
  simp only [isUsedAt, hd, kindAt?_withVocabulary, he, hfree, Option.map_some, Option.any_some,
    Option.map_none, Option.isNone_none, Bool.and_true, Bool.and_eq_true, List.all_map,
    List.all_eq_true, List.any_eq_true, Function.comp_apply, decide_eq_true_eq]
  exact ⟨⟨by simpa using hne, hall⟩, c, hmem, by simp [hunshared], hused⟩

theorem holdTexts_danglingReference :
    Collect.HoldTexts danglingReference []
      [("a.yaml", Collect.definitionText "a" "A"
        ("\x7bproperties: \x7bb: \x7b$ref: '" ++ Schema.componentRef missingComponent
          ++ "'\x7d\x7d\x7d"))] :=
  Collect.holdTexts_ofEntries (.refl _) (by decide) (by decide) (by decide)

theorem danglingReference_lacks : Collect.SchemasLack [typeKey] danglingReference [] := by
  refine holdTexts_danglingReference.schemasLack ?_
  simp only [Collect.charsOf, List.map_cons, List.map_nil, Collect.toList_definitionText,
    String.toList_append, String.reduceToList]
  decide +kernel

theorem danglingReference_evaluated :
    isUsedAt "models/a/v/a.go" missingComponent (Collect.documents danglingReference []) = true := by
  apply isUsedAt_of_own
  rw [holdTexts_danglingReference.resources_eq]
  simp only [Collect.charsOf, List.map_cons, List.map_nil, Collect.toList_definitionText,
    String.toList_append, String.reduceToList]
  decide +kernel

theorem missingComponent_notMem : shortName missingComponent ∉
    (documentTypes (prepareShared vocabularyDocument)).map (·.name) := by
  have hname : shortName missingComponent = "Nope" := by
    rw [missingComponent, Vocabulary.nameOf, shortName_dotted (by decide) (by decide),
      if_pos (by decide)]
    decide
  unfold documentTypes
  rw [hname, schemas_prepareShared_vocabulary]
  decide +kernel

/-- A kind takes a type from the shared package that is not declared there. -/
theorem danglingReference_not_typesResolve :
    ∃ t extracts, generate danglingReference [] = .ok (some t) ∧
      Collect.SchemasLack [typeKey] danglingReference [] ∧
      Collect.documents danglingReference [] = .ok extracts ∧ ¬TypesResolve extracts := by
  obtain ⟨extracts, hd, hne, hwritable, hfree, e, he, huses⟩ :=
    exists_of_isUsedAt danglingReference_evaluated
  obtain ⟨t, ht⟩ := exists_generate hd hne hwritable
  refine ⟨t, extracts, ht, danglingReference_lacks, hd, fun hresolve => ?_⟩
  obtain ⟨_, hd', _, hfiles, htypes⟩ := exists_files_of_generate ht
  cases hd.symm.trans hd'
  have htargets := (typesResolve_iff (fun e he c hc => Collect.throughout_of_documents hd
    danglingReference_lacks (by decide) he hc) hfiles htypes).mp hresolve
  have htype := htargets _ e he missingComponent huses
  have hat := preparedAt_eq extracts sharedPath
  rw [hfree, Option.map_none, Option.none_or, if_pos rfl,
    sharedDocument_eq hd hne fun e he => (hwritable e he).shared] at hat
  rw [preparedTypes, hat] at htype
  exact missingComponent_notMem htype

end ResourceModels.Go
