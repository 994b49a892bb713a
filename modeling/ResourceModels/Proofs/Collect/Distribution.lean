import ResourceModels.Proofs.Collect
import ResourceModels.Proofs.Derive
import ResourceModels.Proofs.Gather
import ResourceModels.Proofs.Go.SharedDocument
import ResourceModels.Proofs.Python.Place

/-!
# Definitions in other files

Two collections of files hold the same definitions if their manifests are the same but for the
order and for what is no definition. Then the documents are the same but for their order and their
sources. Where different manifests define different kinds, and different components beyond the
shared vocabulary, what is chosen among the documents by kind or by component is the same, too.
-/

/-!
## What manifests define

The resources and the documents that are collected from files are those of the manifests in them,
one after another. What a manifest defines does not depend on the file that it is in, on its place
there or on what else the file holds; only the paths of staged files and the sources of documents
do.
-/

namespace ResourceModels

/-- An extract without the file that it comes from. -/
def Extract.anonymous (e : Extract) : Extract := { e with source := "" }

def ResourceDefinition.extracts (r : ResourceDefinition) : Option (List Extract) :=
  r.documents.toOption.map fun documents =>
    documents.map fun d => ⟨r.group, r.names.kind, d.1, "", d.2⟩

namespace Manifest

def isDefinition : Manifest → Bool
  | .other _ => false
  | _ => true

/-- The resources that a manifest defines, if they can be derived. -/
def resources : Manifest → Option (List ResourceDefinition)
  | .resource r => some [r]
  | .composite x => x.derive.toOption.map (·.resources)
  | .other _ => some []

/-- The documents of what a manifest defines. -/
def extracts (m : Manifest) : Option (List Extract) :=
  m.resources.bind (gather ResourceDefinition.extracts)

theorem isDefinition_of_extracts_ne {m : Manifest} (h : m.extracts ≠ some []) :
    m.isDefinition = true := by
  cases m with
  | other kind => exact absurd rfl h
  | _ => rfl

theorem exists_describe_of_mem {m : Manifest} {own : List Extract} (h : m.extracts = some own)
    {e : Extract} (he : e ∈ own) :
    ∃ resources, m.resources = some resources ∧ ∃ r ∈ resources, ∃ v ∈ r.servedVersions,
      ∃ root, e.document = Extract.describe r v.name root := by
  obtain ⟨resources, hresources, hown⟩ := Option.bind_eq_some_iff.mp h
  obtain ⟨r, hr, found, hfound, he⟩ := (mem_gather_iff hown).mp he
  obtain ⟨documents, hdocuments, rfl⟩ := Option.map_eq_some_iff.mp hfound
  obtain ⟨d, hd, rfl⟩ := List.mem_map.mp he
  obtain ⟨v, hv, root, _, rfl⟩ :=
    ResourceDefinition.exists_version_of_mem (Outcome.toOption_eq_some.mp hdocuments) hd
  exact ⟨resources, hresources, r, hr, v, hv, root, rfl⟩

end Manifest

namespace Collect

theorem stage_definitions (file : String) (contents : ByteArray) (alone : Bool) (index : Nat)
    (m : Manifest) :
    (stage file contents alone index m).toOption.map (List.map (·.definition)) = m.resources := by
  cases m with
  | other kind => rfl
  | resource r => cases alone <;> rfl
  | composite x =>
    rw [stage, Manifest.resources, Outcome.toOption_bind]
    cases x.derive with
    | error fault => rfl
    | ok d =>
      obtain ⟨published, claim⟩ := d
      cases claim <;> rfl

theorem stageFile_definitions (file : String) (contents : ByteArray) :
    (stageFile file contents).toOption.map (List.map (·.definition)) =
      (Manifest.classify file contents).toOption.bind (gather Manifest.resources) := by
  rw [stageFile, Outcome.toOption_bind]
  cases (Manifest.classify file contents).toOption with
  | none => rfl
  | some manifests =>
    rw [Option.bind_some, Option.bind_some, toOption_flatten, map_gather]
    simp only [stage_definitions]
    rw [← gather_map Manifest.resources Prod.fst, List.zipIdx_map_fst]

section

variable {σ : Type} [FileStore σ]

/-- The manifests of a file, if it can be read. -/
def manifestsOf (files : σ) (file : String) : Option (List Manifest) :=
  (FileStore.read files file).toOption.bind fun contents =>
    (Manifest.classify file contents).toOption

/-- The manifests of the files that are not left out, in order of path. -/
def manifests (files : σ) (exclude : List String) : Option (List Manifest) :=
  gather (manifestsOf files) (sources files exclude)

theorem resources_definitions (files : σ) (exclude : List String) :
    (resources files exclude).toOption.map (List.map (·.definition)) =
      (manifests files exclude).bind (gather Manifest.resources) := by
  rw [manifests, bind_gather, resources, toOption_flatten, map_gather]
  refine congrArg (gather · _) (funext fun file => ?_)
  rw [manifestsOf]
  cases FileStore.read files file with
  | error fault => rfl
  | ok contents => exact stageFile_definitions file contents

theorem extracts_anonymous (s : Staged) :
    (extracts s).toOption.map (List.map Extract.anonymous) = s.definition.extracts := by
  simp only [extracts, Outcome.toOption_bind, Outcome.toOption_pure, ResourceDefinition.extracts]
  cases s.definition.documents.toOption with
  | none => rfl
  | some documents => simp [Extract.anonymous]

/-- But for their sources, the documents are those of the manifests one after another. -/
theorem documents_anonymous (files : σ) (exclude : List String) :
    (documents files exclude).toOption.map (List.map Extract.anonymous) =
      (manifests files exclude).bind (gather Manifest.extracts) := by
  have hstaged : (documents files exclude).toOption.map (List.map Extract.anonymous) =
      ((resources files exclude).toOption.map (List.map (·.definition))).bind
        (gather ResourceDefinition.extracts) := by
    rw [documents, Outcome.toOption_bind]
    cases (resources files exclude).toOption with
    | none => rfl
    | some staged =>
      rw [Option.bind_some, toOption_flatten, map_gather, Option.map_some, Option.bind_some,
        gather_map]
      simp only [extracts_anonymous]
  rw [hstaged, resources_definitions, Option.bind_assoc]
  simp only [bind_gather]
  rfl

end

end Collect

end ResourceModels

/-! ## The same definitions -/

namespace ResourceModels

/-- The kind that an extract is about, by its name in small letters. -/
def Extract.toKind (e : Extract) : Python.Kind := ⟨e.group, e.version, Text.lower e.kind⟩

/-- The names of the kinds and the lists that a resource has documents of. -/
def ResourceDefinition.componentNames (r : ResourceDefinition) : List String :=
  r.servedVersions.flatMap fun v => [Extract.kindName r v.name, Extract.listName r v.name]

namespace Manifest

def kinds (m : Manifest) : List Python.Kind := (m.extracts.getD []).map Extract.toKind

/-- The components of the documents of a manifest, without the shared vocabulary. -/
def components (m : Manifest) : List String :=
  ((m.extracts.getD []).flatMap fun e => Dict.keys e.document.schemas).filter
    (· ∉ Dict.keys Vocabulary.schemas)

/-- Neither kinds nor components in common. -/
structure Apart (m m' : Manifest) : Prop where
  kinds : m.kinds.Disjoint m'.kinds
  components : m.components.Disjoint m'.components

theorem Apart.symm {m m' : Manifest} (h : m.Apart m') : m'.Apart m :=
  ⟨fun _ hk hk' => h.kinds hk' hk, fun _ hc hc' => h.components hc' hc⟩

theorem toKind_mem {m : Manifest} {own : List Extract} (h : m.extracts = some own) {e : Extract}
    (he : e ∈ own) : e.toKind ∈ m.kinds := by
  rw [kinds, h]
  exact List.mem_map_of_mem he

theorem mem_components {m : Manifest} {own : List Extract} (h : m.extracts = some own)
    {e : Extract} (he : e ∈ own) {name : String} (hname : name ∈ Dict.keys e.document.schemas)
    (hown : name ∉ Dict.keys Vocabulary.schemas) : name ∈ m.components := by
  rw [components, h, Option.getD_some, List.mem_filter, decide_eq_true_eq]
  exact ⟨List.mem_flatMap.mpr ⟨e, he, hname⟩, hown⟩

/-- The components of a manifest are the kinds and the lists of its resources. -/
theorem components_subset {m : Manifest} {resources : List ResourceDefinition}
    (h : m.resources = some resources) :
    m.components ⊆ resources.flatMap ResourceDefinition.componentNames := by
  intro name hname
  rw [components, List.mem_filter, decide_eq_true_eq] at hname
  obtain ⟨hmem, hown⟩ := hname
  obtain ⟨e, he, hname⟩ := List.mem_flatMap.mp hmem
  cases hextracts : m.extracts with
  | none => simp [hextracts] at he
  | some own =>
    rw [hextracts, Option.getD_some] at he
    obtain ⟨_, hresources, r, hr, v, hv, root, hdocument⟩ := exists_describe_of_mem hextracts he
    cases h.symm.trans hresources
    rw [hdocument, Extract.mem_keys_describe] at hname
    refine List.mem_flatMap.mpr ⟨r, hr, List.mem_flatMap.mpr ⟨v, hv, ?_⟩⟩
    rcases hname with rfl | rfl | hshared
    · exact List.mem_cons_self
    · exact List.mem_cons_of_mem _ List.mem_cons_self
    · exact absurd hshared hown

end Manifest

/-- Different manifests define different kinds and components. -/
def DefinitionsApart (ms : List Manifest) : Prop :=
  ∀ m ∈ ms, ∀ m' ∈ ms, m ≠ m' → m.Apart m'

/-- The same manifests but for the order and for what is no definition. -/
def SameDefinitions (ms ms' : List Manifest) : Prop :=
  (ms.filter Manifest.isDefinition).Perm (ms'.filter Manifest.isDefinition)

section

variable {ms ms' : List Manifest} {l l' : List Extract}

theorem SameDefinitions.mem_iff (h : SameDefinitions ms ms') {m : Manifest}
    (hm : m.extracts ≠ some []) : m ∈ ms ↔ m ∈ ms' := by
  have hdefinition := Manifest.isDefinition_of_extracts_ne hm
  have hmem := List.Perm.mem_iff h (a := m)
  simpa only [List.mem_filter, hdefinition, and_true] using hmem

theorem SameDefinitions.exists_gather (h : SameDefinitions ms ms')
    (hl : gather Manifest.extracts ms = some l) :
    ∃ l', gather Manifest.extracts ms' = some l' := by
  have hall := exists_gather_iff.mp ⟨l, hl⟩
  refine exists_gather_iff.mpr fun m hm => ?_
  by_cases hempty : m.extracts = some []
  · exact ⟨[], hempty⟩
  · exact hall m ((h.mem_iff hempty).mpr hm)

theorem SameDefinitions.mem_extracts_iff (h : SameDefinitions ms ms')
    (hl : gather Manifest.extracts ms = some l) (hl' : gather Manifest.extracts ms' = some l')
    {e : Extract} : e ∈ l ↔ e ∈ l' := by
  rw [mem_gather_iff hl, mem_gather_iff hl']
  have hiff : ∀ m own, m.extracts = some own → e ∈ own → (m ∈ ms ↔ m ∈ ms') := by
    intro m own hown he
    refine h.mem_iff fun hempty => ?_
    cases hown.symm.trans hempty
    cases he
  constructor
  · rintro ⟨m, hm, own, hown, he⟩
    exact ⟨m, (hiff m own hown he).mp hm, own, hown, he⟩
  · rintro ⟨m, hm, own, hown, he⟩
    exact ⟨m, (hiff m own hown he).mpr hm, own, hown, he⟩

theorem SameDefinitions.isEmpty_eq (h : SameDefinitions ms ms')
    (hl : gather Manifest.extracts ms = some l) (hl' : gather Manifest.extracts ms' = some l') :
    l.isEmpty = l'.isEmpty := by
  rw [Bool.eq_iff_iff, List.isEmpty_iff, List.isEmpty_iff, List.eq_nil_iff_forall_not_mem,
    List.eq_nil_iff_forall_not_mem]
  simp only [h.mem_extracts_iff hl hl']

theorem agree_of_component (hapart : DefinitionsApart ms) {name : String}
    {choose : List Extract → Option Schema}
    (hchoose : ∀ own s, choose own = some s → ∃ e ∈ own, (name, s) ∈ e.document.schemas) :
    Agree choose Manifest.extracts ms := by
  intro m hm m' hm' own other hown hother s s' hs hs'
  by_cases hsame : m = m'
  · subst hsame
    cases hown.symm.trans hother
    exact Option.some.inj (hs.symm.trans hs')
  obtain ⟨e, he, hmem⟩ := hchoose own s hs
  obtain ⟨e', he', hmem'⟩ := hchoose other s' hs'
  have hname : name ∈ Dict.keys Vocabulary.schemas := by
    by_contra hnot
    exact (hapart m hm m' hm' hsame).components
      (Manifest.mem_components hown he (Dict.mem_keys_of_mem hmem) hnot)
      (Manifest.mem_components hother he' (Dict.mem_keys_of_mem hmem') hnot)
  obtain ⟨_, _, r, _, v, _, root, hdocument⟩ := Manifest.exists_describe_of_mem hown he
  obtain ⟨_, _, r', _, v', _, root', hdocument'⟩ := Manifest.exists_describe_of_mem hother he'
  rw [hdocument] at hmem
  rw [hdocument'] at hmem'
  have hshared := Go.sorted_vocabulary.get?_of_mem (Go.mem_vocabulary_of_mem_describe hmem hname)
  have hshared' := Go.sorted_vocabulary.get?_of_mem (Go.mem_vocabulary_of_mem_describe hmem' hname)
  exact Option.some.inj (hshared.symm.trans hshared')

theorem agree_of_kind (hapart : DefinitionsApart ms) {α : Type} {choose : List Extract → Option α}
    {P : Extract → Prop} (hchoose : ∀ own a, choose own = some a → ∃ e ∈ own, P e)
    (hP : ∀ m ∈ ms, ∀ m' ∈ ms, ∀ e e', e.toKind ∈ m.kinds → e'.toKind ∈ m'.kinds → P e → P e' →
      e.toKind = e'.toKind) :
    Agree choose Manifest.extracts ms := by
  intro m hm m' hm' own other hown hother a a' ha ha'
  by_cases hsame : m = m'
  · subst hsame
    cases hown.symm.trans hother
    exact Option.some.inj (ha.symm.trans ha')
  obtain ⟨e, he, hPe⟩ := hchoose own a ha
  obtain ⟨e', he', hPe'⟩ := hchoose other a' ha'
  have hkind := Manifest.toKind_mem hown he
  have hkind' := Manifest.toKind_mem hother he'
  rw [← hP m hm m' hm' e e' hkind hkind' hPe hPe'] at hkind'
  exact absurd hkind' ((hapart m hm m' hm' hsame).kinds hkind)

end

section

variable {σ τ : Type} [FileStore σ] [FileStore τ] {files : σ} {others : τ}
  {exclude exclude' : List String} {ms ms' : List Manifest}

/-- Where the documents of some files are found, so are those of files with the same definitions. -/
theorem Collect.exists_documents (hm : manifests files exclude = some ms)
    (hm' : manifests others exclude' = some ms') (hsame : SameDefinitions ms ms')
    {extracts : List Extract} (h : documents files exclude = .ok extracts) :
    ∃ extracts', documents others exclude' = .ok extracts' ∧
      gather Manifest.extracts ms = some (extracts.map Extract.anonymous) ∧
        gather Manifest.extracts ms' = some (extracts'.map Extract.anonymous) := by
  have hown := documents_anonymous files exclude
  rw [h, hm] at hown
  obtain ⟨l', hl'⟩ := hsame.exists_gather hown.symm
  have hother := documents_anonymous others exclude'
  rw [hm', Option.bind_some, hl'] at hother
  obtain ⟨extracts', hextracts', rfl⟩ := Option.map_eq_some_iff.mp hother
  exact ⟨extracts', Outcome.toOption_eq_some.mp hextracts', hown.symm, hl'⟩

end

end ResourceModels
