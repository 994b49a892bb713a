import ResourceModels.Extract
import ResourceModels.Proofs.Dict
import ResourceModels.Proofs.Schema.Nodes

/-!
# Documents are closed

A document describes a version of a resource. To the schema of the version nothing is added but
references to components of the document, and neither the list nor the shared vocabulary refers to
anything else. So where the schemas of the versions refer to nothing, every reference in a document
leads to one of its components.
-/

namespace ResourceModels

namespace Json

mutual

/-- The references anywhere in a value: the texts under the key `$ref`. -/
def references : Json → List String
  | .arr items => itemReferences items
  | .obj fields => fieldReferences fields
  | _ => []

def itemReferences : List Json → List String
  | [] => []
  | j :: rest => references j ++ itemReferences rest

def fieldReferences : List (String × Json) → List String
  | [] => []
  | (key, j) :: rest =>
    (if key = "$ref" then j.text?.toList else []) ++ references j ++ fieldReferences rest

end

end Json

namespace OpenApi

/-- A reference to one of the components. -/
def Resolves (doc : OpenApi) (reference : String) : Prop :=
  ∃ name ∈ doc.schemas.keys, reference = Schema.componentRef name

structure Closed (doc : OpenApi) : Prop where
  schemas : ∀ c ∈ doc.schemas, ∀ n ∈ c.2.nodes, ∀ reference,
    n.keywords.reference = some reference → doc.Resolves reference
  paths : ∀ item ∈ doc.paths, ∀ reference ∈ item.2.references, doc.Resolves reference

end OpenApi

namespace Extract

open Schema (Throughout)

/-- Where the keywords of a node of a described component come from, its identity apart. -/
inductive Origin (doc : OpenApi) (root : Schema) (k : Keywords) : Prop
  | own (n : Schema) (hn : n ∈ root.nodes) (hreference : k.reference = n.keywords.reference)
      (hextension : ∀ key, key ≠ identityKey → k.extension? key = n.keywords.extension? key)
  | added (hreference : ∀ reference, k.reference = some reference → doc.Resolves reference)
      (hextension : ∀ key, key ≠ identityKey → k.extension? key = none)

section

variable {doc : OpenApi} {root : Schema}

theorem Origin.congr {k k' : Keywords} (h : Origin doc root k) (hreference : k'.reference = k.reference)
    (hextension : ∀ key, key ≠ identityKey → k'.extension? key = k.extension? key) :
    Origin doc root k' := by
  cases h with
  | own n hn hr he =>
    exact .own n hn (hreference.trans hr) fun key hne => (hextension key hne).trans (he key hne)
  | added hr he =>
    exact .added (fun reference h => hr reference (hreference ▸ h))
      fun key hne => (hextension key hne).trans (he key hne)

theorem Origin.withIdentity {k : Keywords} (h : Origin doc root k) (j : Json) :
    Origin doc root (k.setExtension identityKey j) := by
  refine h.congr rfl fun key hne => ?_
  rw [Keywords.extension?, Keywords.setExtension, Dict.get?_insert, if_neg hne.symm]
  rfl

theorem Origin.plain {k : Keywords} (hreference : k.reference = none) (hextensions : k.extensions = []) :
    Origin doc root k := by
  refine .added (fun reference h => ?_) fun key _ => ?_
  · rw [hreference] at h
    cases h
  · rw [Keywords.extension?, hextensions]
    rfl

theorem throughout_own : Throughout (Origin doc root) root :=
  fun n hn => .own n hn rfl fun _ _ => rfl

theorem throughout_ref {name : String} (h : name ∈ doc.schemas.keys) :
    Throughout (Origin doc root) (Schema.ref name) := by
  refine Schema.throughout_of_parts_nil rfl (.added (fun reference hr => ?_) fun _ _ => rfl)
  cases hr
  exact ⟨name, h, rfl⟩

theorem throughout_allOfRef {name : String} (h : name ∈ doc.schemas.keys) :
    Throughout (Origin doc root) (Schema.allOfRef name) := by
  refine Schema.throughout_iff.mpr ⟨.plain rfl rfl, fun part hp => ?_⟩
  rw [List.mem_singleton.mp hp]
  exact throughout_ref h

theorem throughout_typed (name : String) : Throughout (Origin doc root) (Schema.typed name) :=
  Schema.throughout_of_parts_nil rfl (.plain rfl rfl)

theorem throughout_withDefault {s : Schema} (h : Throughout (Origin doc root) s)
    (name value : String) : Throughout (Origin doc root) (withDefault s name value) := by
  have hp : Throughout (Origin doc root) ((Dict.get? s.properties name).getD (Schema.typed "string")) := by
    cases hget : Dict.get? s.properties name with
    | none => exact throughout_typed "string"
    | some p =>
      have hmem := List.mem_map_of_mem (f := fun property : String × Schema => property.2)
        (Dict.mem_of_get? hget)
      exact h.part (Schema.mem_parts.mpr (.inl hmem))
  exact h.withProperty name (hp.withKeywords (hp.keywords.congr rfl fun _ _ => rfl))

theorem throughout_kindSchema (h : Vocabulary.nameOf "ObjectMeta" ∈ doc.schemas.keys)
    (group version kind : String) :
    Throughout (Origin doc root) (kindSchema root group version kind) := by
  have hroot : Throughout (Origin doc root) root := throughout_own
  have htyped := hroot.withKeywords (k := { root.keywords with
    typeName := root.keywords.typeName.or (some "object") })
    (hroot.keywords.congr rfl fun _ _ => rfl)
  have hdefaults := throughout_withDefault (throughout_withDefault htyped "apiVersion"
    (group ++ "/" ++ version)) "kind" kind
  have hmeta : Throughout (Origin doc root) ((Schema.allOfRef (Vocabulary.nameOf "ObjectMeta")).withDescription
      "Standard object's metadata.") :=
    (throughout_allOfRef h).withKeywords (.plain rfl rfl)
  have hall := hdefaults.withProperty "metadata" hmeta
  exact hall.withKeywords (hall.keywords.withIdentity _)

theorem throughout_listSchema {kindName : String} (hkind : kindName ∈ doc.schemas.keys)
    (hmeta : Vocabulary.nameOf "ListMeta" ∈ doc.schemas.keys) (group version listKind : String) :
    Throughout (Origin doc root) (listSchema kindName group version listKind) := by
  have hitems : Throughout (Origin doc root)
      ((Schema.typed "array").withItems (Schema.ref kindName)) := by
    refine Schema.throughout_iff.mpr ⟨.plain rfl rfl, fun part hp => ?_⟩
    rw [List.mem_singleton.mp hp]
    exact throughout_ref hkind
  have hobject : Throughout (Origin doc root)
      ((Schema.typed "object").withDescription (listKind ++ " is a list of " ++ kindName)) :=
    (throughout_typed "object").withKeywords (.plain rfl rfl)
  have hall := (((hobject.withProperty "apiVersion" (throughout_typed "string")).withProperty "kind"
    (throughout_typed "string")).withProperty "items" hitems).withProperty "metadata"
      (throughout_allOfRef hmeta)
  exact hall.withKeywords (.withIdentity (.plain rfl rfl) _)

end

section

variable (r : ResourceDefinition) (version : String) (root : Schema)

def kindName : String := componentName r.group version r.names.kind

def listName : String := componentName r.group version r.names.listKindName

theorem schemas_describe : (describe r version root).schemas =
    Dict.insertAll (Dict.ofList
      [(kindName r version, kindSchema root r.group version r.names.kind),
        (listName r version,
          listSchema (kindName r version) r.group version r.names.listKindName)])
      Vocabulary.schemas := by
  simp only [describe, kindName, listName]

theorem mem_schemas_describe {c : String × Schema}
    (h : c ∈ (describe r version root).schemas) :
    c = (kindName r version, kindSchema root r.group version r.names.kind) ∨
      c = (listName r version,
        listSchema (kindName r version) r.group version r.names.listKindName) ∨
      c ∈ Vocabulary.schemas := by
  rw [schemas_describe] at h
  rcases Dict.mem_insertAll h with h | h
  · have hown := Dict.mem_of_mem_ofList h
    simp only [List.mem_cons, List.not_mem_nil, or_false] at hown
    exact hown.imp_right .inl
  · exact .inr (.inr h)

theorem mem_keys_describe {name : String} : name ∈ (describe r version root).schemas.keys ↔
    name = kindName r version ∨ name = listName r version ∨ name ∈ Vocabulary.schemas.keys := by
  rw [schemas_describe, Dict.mem_keys_insertAll, Dict.mem_keys_ofList, Dict.keys]
  simp only [List.map_cons, List.map_nil, List.mem_cons, List.not_mem_nil, or_false, or_assoc]

end

/-- The shared vocabulary refers to itself only. -/
theorem vocabulary_closed : ∀ c ∈ Vocabulary.schemas, ∀ n ∈ c.2.nodes,
    n.keywords.extensions.isEmpty = true ∧ ∀ reference ∈ n.keywords.reference,
      ∃ name ∈ Vocabulary.schemas.keys, reference = Schema.componentRef name := by
  decide +kernel

theorem throughout_vocabulary {doc : OpenApi} (root : Schema)
    (h : ∀ name ∈ Vocabulary.schemas.keys, name ∈ doc.schemas.keys) {c : String × Schema}
    (hc : c ∈ Vocabulary.schemas) : Throughout (Origin doc root) c.2 := by
  intro n hn
  obtain ⟨hextensions, hreference⟩ := vocabulary_closed c hc n hn
  refine .added (fun reference hr => ?_) fun key _ => ?_
  · obtain ⟨name, hname, rfl⟩ := hreference reference hr
    exact ⟨name, h name hname, rfl⟩
  · rw [Keywords.extension?, List.isEmpty_iff.mp hextensions]
    rfl

theorem listPath_references (listComponent : String) :
    (listPath listComponent).references = [Schema.componentRef listComponent] := by
  simp [listPath, Json.references, Json.fieldReferences, Json.text?]

/-- Nothing is added to the schema of a version but references to components. -/
theorem throughout_describe (r : ResourceDefinition) (version : String) (root : Schema)
    {c : String × Schema} (hc : c ∈ (describe r version root).schemas) :
    Throughout (Origin (describe r version root) root) c.2 := by
  have hshared : ∀ name ∈ Vocabulary.schemas.keys, name ∈ (describe r version root).schemas.keys :=
    fun name hname => (mem_keys_describe r version root).mpr (.inr (.inr hname))
  rcases mem_schemas_describe r version root hc with rfl | rfl | hc
  · exact throughout_kindSchema (hshared _ (by decide)) _ _ _
  · have hkind : kindName r version ∈ (describe r version root).schemas.keys :=
      (mem_keys_describe r version root).mpr (.inl rfl)
    exact throughout_listSchema hkind (hshared _ (by decide)) _ _ _
  · exact throughout_vocabulary root hshared hc

theorem closed_describe (r : ResourceDefinition) (version : String) {root : Schema}
    (hroot : Throughout (fun k => k.reference = none) root) :
    (describe r version root).Closed where
  schemas c hc n hn reference hr := by
    cases throughout_describe r version root hc n hn with
    | own m hm hreference _ =>
      rw [hreference, hroot m hm] at hr
      cases hr
    | added hreference _ => exact hreference reference hr
  paths item hitem reference hr := by
    rw [List.mem_singleton.mp hitem, listPath_references, List.mem_singleton] at hr
    exact ⟨_, (mem_keys_describe r version root).mpr (.inr (.inl rfl)), hr⟩

end Extract

namespace ResourceDefinition

section

variable {r : ResourceDefinition} {documents : Dict OpenApi}

theorem of_documents_eq_ok (h : r.documents = .ok documents) :
    (r.group ≠ "" ∧ r.names.kind ≠ "") ∧
      documents = Dict.ofList (r.servedVersions.filterMap fun v =>
        v.schema?.map fun root => (v.name, Extract.describe r v.name root)) := by
  unfold ResourceDefinition.documents at h
  split at h
  · cases h
  · next hnamed =>
    cases h
    exact ⟨not_or.mp hnamed, rfl⟩

theorem exists_version_of_mem (h : r.documents = .ok documents) {d : String × OpenApi}
    (hd : d ∈ documents) :
    ∃ v ∈ r.servedVersions, ∃ root ∈ v.schema?, d = (v.name, Extract.describe r v.name root) := by
  rw [(of_documents_eq_ok h).2] at hd
  obtain ⟨v, hv, hdescribed⟩ := List.mem_filterMap.mp (Dict.mem_of_mem_ofList hd)
  obtain ⟨root, hroot, rfl⟩ := Option.map_eq_some_iff.mp hdescribed
  exact ⟨v, hv, root, hroot, rfl⟩

theorem mem_keys_documents (h : r.documents = .ok documents) {name : String} :
    name ∈ documents.keys ↔ ∃ v ∈ r.servedVersions, v.schema?.isSome ∧ v.name = name := by
  rw [(of_documents_eq_ok h).2, Dict.mem_keys_ofList, List.map_filterMap, List.mem_filterMap]
  refine exists_congr fun v => and_congr_right fun _ => ?_
  cases v.schema? <;> simp

/-- A resource has one document for each name of a served version with a schema, and where these
schemas refer to nothing, all that a document refers to is among its components. -/
theorem documents_closed (h : r.documents = .ok documents)
    (hroots : ∀ v ∈ r.servedVersions, ∀ root ∈ v.schema?,
      root.Throughout fun k => k.reference = none) :
    documents.keys.Nodup ∧
      (∀ name, name ∈ documents.keys ↔
        ∃ v ∈ r.servedVersions, v.schema?.isSome ∧ v.name = name) ∧
      ∀ d ∈ documents, d.2.Closed ∧
        ∃ item reference, d.2.paths = [item] ∧ item.2.references = [reference] := by
  refine ⟨?_, fun name => mem_keys_documents h, ?_⟩
  · rw [(of_documents_eq_ok h).2]
    exact (Dict.sorted_ofList _).keys_nodup
  · intro d hd
    obtain ⟨v, hv, root, hroot, rfl⟩ := exists_version_of_mem h hd
    refine ⟨Extract.closed_describe r v.name (hroots v hv root hroot), ?_⟩
    exact ⟨_, _, rfl, Extract.listPath_references _⟩

end

/-- A resource whose list has the name of its kind, among the names of the shared schemas, and with
two versions of one name. -/
def overlapping : ResourceDefinition :=
  let leaf := (Schema.typed "object").withAdditional (Schema.typed "string")
  let version (root : Schema) : ResourceVersion :=
    { name := "meta.v1", served := true, validation := some ⟨some root⟩ }
  { group := "io.k8s.apimachinery.pkg.apis"
    names := { kind := "Time", listKind := some "Time" }
    versions := [version leaf, { name := "v2", served := true },
      version ((Schema.typed "array").withItems leaf)] }

theorem documents_closed_overlapping :
    ∃ documents, overlapping.documents = .ok documents ∧ documents.keys = ["meta.v1"] ∧
      (∀ v ∈ overlapping.servedVersions, ∀ root ∈ v.schema?,
        root.Throughout fun k => k.reference = none) ∧
      ∀ d ∈ documents, d.2.Closed := by
  have hok : ∃ documents, overlapping.documents = .ok documents := ⟨_, rfl⟩
  obtain ⟨documents, h⟩ := hok
  have hroots : ∀ v ∈ overlapping.servedVersions, ∀ root ∈ v.schema?,
      root.Throughout fun k => k.reference = none := by
    decide
  have hclosed := documents_closed h hroots
  exact ⟨documents, h, by cases h; decide, hroots, fun d hd => (hclosed.2.2 d hd).1⟩

end ResourceDefinition

end ResourceModels
