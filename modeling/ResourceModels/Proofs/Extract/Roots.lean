import ResourceModels.Proofs.Extract

/-!
# What documents keep of the schemas of versions

The document of a version holds the schema of the version under the name of its kind. To that schema
only the identity of the kind, its metadata and the defaults of two properties are added. The schema
of the list and the shared schemas are written after it, so it is lost exactly if one of them has
its name.
-/

namespace ResourceModels

namespace Extract

/-- A property with a text for its default, and otherwise as it was given, or else any text. -/
structure IsDefaulted (given : Option Schema) (value : String) (p : Schema) : Prop where
  default? : p.keywords.default? = some (.str value)
  rest : { p with keywords := { p.keywords with
    default? := (given.getD (Schema.typed "string")).keywords.default? } } =
      given.getD (Schema.typed "string")

/-- The schema of a kind, made from the schema of a version. -/
structure IsKindOf (group version kind : String) (root s : Schema) : Prop where
  keywords : { s.keywords with extensions := [] } =
    { root.keywords with
      typeName := some (root.keywords.typeName.getD "object"), extensions := [] }
  extension : ∀ key, s.keywords.extension? key =
    if key = identityKey then some (identity group version kind) else root.keywords.extension? key
  apiVersion : ∃ p, Dict.get? s.properties "apiVersion" = some p ∧
    IsDefaulted (Dict.get? root.properties "apiVersion") (group ++ "/" ++ version) p
  kind : ∃ p, Dict.get? s.properties "kind" = some p ∧
    IsDefaulted (Dict.get? root.properties "kind") kind p
  metadata : ∃ p, Dict.get? s.properties "metadata" = some p ∧
    p.allOf.map (·.keywords.reference) =
      [some (Schema.componentRef (Vocabulary.nameOf "ObjectMeta"))]
  property : ∀ name, name ∉ ["apiVersion", "kind", "metadata"] →
    Dict.get? s.properties name = Dict.get? root.properties name
  parts : s.items = root.items ∧ s.additional = root.additional ∧ s.allOf = root.allOf ∧
    s.anyOf = root.anyOf ∧ s.oneOf = root.oneOf ∧ s.not = root.not

/-- The schema of a list of a component. -/
structure IsListOf (component : String) (s : Schema) : Prop where
  typeName : s.keywords.typeName = some "object"
  items : ∃ p element, Dict.get? s.properties "items" = some p ∧
    p.keywords.typeName = some "array" ∧ p.items = some element ∧
    element.keywords.reference = some (Schema.componentRef component)

section

variable {root s : Schema} {group version kind component : String}

theorem get?_withProperty (s : Schema) (name other : String) (p : Schema) :
    Dict.get? (s.withProperty name p).properties other =
      if name = other then some p else Dict.get? s.properties other :=
  Dict.get?_insert s.properties name other p

theorem isDefaulted (given : Option Schema) (value : String) :
    IsDefaulted given value
      { given.getD (Schema.typed "string") with keywords :=
        { (given.getD (Schema.typed "string")).keywords with default? := some (.str value) } } := by
  refine ⟨rfl, ?_⟩
  generalize given.getD (Schema.typed "string") = p
  cases p
  rfl

theorem isKindOf_kindSchema (root : Schema) (group version kind : String) :
    IsKindOf group version kind root (kindSchema root group version kind) where
  keywords := by
    cases htype : root.keywords.typeName <;>
      simp [kindSchema, withDefault, Schema.withProperty, Schema.setExtension,
        Keywords.setExtension, htype]
  extension key := by
    simp only [kindSchema, Schema.setExtension, Keywords.setExtension, Keywords.extension?,
      Dict.get?_insert, eq_comm (a := identityKey)]
    rfl
  apiVersion := by
    simp only [kindSchema, Schema.setExtension, withDefault, get?_withProperty, String.reduceEq,
      if_false, if_true, Option.some.injEq, exists_eq_left']
    exact isDefaulted _ _
  kind := by
    simp only [kindSchema, Schema.setExtension, withDefault, get?_withProperty, String.reduceEq,
      if_false, if_true, Option.some.injEq, exists_eq_left']
    exact isDefaulted _ _
  metadata := by
    simp only [kindSchema, Schema.setExtension, get?_withProperty, if_true, Option.some.injEq,
      exists_eq_left']
    rfl
  property name hname := by
    simp only [List.mem_cons, List.not_mem_nil, or_false, not_or, ← ne_eq] at hname
    obtain ⟨hversion, hkind, hmeta⟩ := hname
    simp only [kindSchema, Schema.setExtension, withDefault, get?_withProperty, if_neg hmeta.symm,
      if_neg hkind.symm, if_neg hversion.symm]
  parts := ⟨rfl, rfl, rfl, rfl, rfl, rfl⟩

theorem isListOf_listSchema (component group version listKind : String) :
    IsListOf component (listSchema component group version listKind) where
  typeName := rfl
  items := by
    refine ⟨(Schema.typed "array").withItems (Schema.ref component), Schema.ref component, ?_, rfl,
      rfl, rfl⟩
    simp only [listSchema, Schema.setExtension, Schema.withRequired, get?_withProperty,
      String.reduceEq, if_false, if_true]

/-- A list states no default of its own. -/
theorem not_isKindOf_listSchema (listKind : String) :
    ¬IsKindOf group version kind root (listSchema component group version listKind) := by
  intro h
  obtain ⟨p, hp, hdefault⟩ := h.kind
  have hplain : p = Schema.typed "string" := by
    simp only [listSchema, Schema.setExtension, Schema.withRequired, get?_withProperty,
      String.reduceEq, if_false, if_true] at hp
    exact (Option.some.inj hp).symm
  rw [hplain] at hdefault
  cases hdefault.default?

/-- The shared schemas state neither an identity nor what is in a list. -/
theorem not_shared : ∀ c ∈ Vocabulary.schemas,
    c.2.keywords.extensions = [] ∧ Dict.get? c.2.properties "items" = none := by
  decide

theorem not_isKindOf_shared {name : String} (h : (name, s) ∈ Vocabulary.schemas) :
    ¬IsKindOf group version kind root s := by
  intro hkind
  have hidentity := hkind.extension identityKey
  rw [if_pos rfl, Keywords.extension?, (not_shared _ h).1] at hidentity
  cases hidentity

theorem not_isListOf_shared {name : String} (h : (name, s) ∈ Vocabulary.schemas) :
    ¬IsListOf component s := by
  intro hlist
  obtain ⟨p, _, hp, _⟩ := hlist.items
  rw [(not_shared _ h).2] at hp
  cases hp

end

section

variable (r : ResourceDefinition) (version : String) (root : Schema)

/-- What stands under a name: a shared schema, or else the list, or else the kind. -/
theorem get?_schemas_describe (name : String) :
    Dict.get? (describe r version root).schemas name =
      (Dict.get? Vocabulary.schemas name).or
        (if listName r version = name then
          some (listSchema (kindName r version) r.group version r.names.listKindName)
        else if kindName r version = name then
          some (kindSchema root r.group version r.names.kind)
        else none) := by
  have hshared : Dict.ofList Vocabulary.schemas = Vocabulary.schemas :=
    (Dict.sorted_ofList _).ofList_eq
  rw [schemas_describe, Dict.get?_insertAll, ← Dict.get?_ofList, hshared, Dict.get?_ofList,
    List.reverse_cons, List.reverse_singleton, List.singleton_append, List.find?_cons,
    List.find?_cons, List.find?_nil]
  congr 1
  by_cases hlist : listName r version = name
  · simp [hlist]
  · by_cases hkind : kindName r version = name <;> simp [hlist, hkind]

theorem listName_eq_kindName_iff :
    listName r version = kindName r version ↔ r.names.listKindName = r.names.kind := by
  rw [listName, kindName, componentName, componentName, String.append_right_inj]

theorem exists_isKindOf_iff :
    (∃ s, Dict.get? (describe r version root).schemas (kindName r version) = some s ∧
        IsKindOf r.group version r.names.kind root s) ↔
      r.names.listKindName ≠ r.names.kind ∧ kindName r version ∉ Vocabulary.schemas.keys := by
  rw [get?_schemas_describe, ← Dict.get?_eq_none_iff, ne_eq, ← listName_eq_kindName_iff r version]
  constructor
  · rintro ⟨s, hs, hkind⟩
    cases hshared : Dict.get? Vocabulary.schemas (kindName r version) with
    | some shared =>
      rw [hshared, Option.some_or, Option.some.injEq] at hs
      exact absurd (hs ▸ hkind) (not_isKindOf_shared (Dict.mem_of_get? hshared))
    | none =>
      refine ⟨fun hlist => ?_, rfl⟩
      rw [hshared, Option.none_or, if_pos hlist, Option.some.injEq] at hs
      exact not_isKindOf_listSchema _ (hs ▸ hkind)
  · rintro ⟨hlist, hshared⟩
    rw [hshared, Option.none_or, if_neg hlist, if_pos rfl]
    exact ⟨_, rfl, isKindOf_kindSchema _ _ _ _⟩

theorem exists_isListOf_iff :
    (∃ s, Dict.get? (describe r version root).schemas (listName r version) = some s ∧
        IsListOf (kindName r version) s) ↔ listName r version ∉ Vocabulary.schemas.keys := by
  rw [get?_schemas_describe, ← Dict.get?_eq_none_iff]
  constructor
  · rintro ⟨s, hs, hlist⟩
    cases hshared : Dict.get? Vocabulary.schemas (listName r version) with
    | some shared =>
      rw [hshared, Option.some_or, Option.some.injEq] at hs
      exact absurd (hs ▸ hlist) (not_isListOf_shared (Dict.mem_of_get? hshared))
    | none => rfl
  · intro hshared
    rw [hshared, Option.none_or, if_pos rfl]
    exact ⟨_, rfl, isListOf_listSchema _ _ _ _⟩

end

end Extract

namespace ResourceDefinition

open Extract (describe IsKindOf IsListOf)

variable {r : ResourceDefinition} {documents : Dict OpenApi}

/-- Where versions have different names, each one with a schema has a document of its own. -/
theorem get?_documents (h : r.documents = .ok documents) (hnames : (r.versions.map (·.name)).Nodup)
    {v : ResourceVersion} (hv : v ∈ r.servedVersions) {root : Schema} (hroot : v.schema? = some root) :
    Dict.get? documents v.name = some (describe r v.name root) := by
  have hsublist : ∀ versions : List ResourceVersion,
      ((versions.filterMap fun v =>
        v.schema?.map fun root => (v.name, describe r v.name root)).map (·.1)).Sublist
          (versions.map (·.name)) := by
    intro versions
    induction versions with
    | nil => exact .slnil
    | cons first rest ih =>
      rw [List.filterMap_cons]
      cases first.schema? with
      | none => exact ih.cons _
      | some root => exact ih.cons_cons _
  have hdifferent := ((hsublist r.servedVersions).trans (List.filter_sublist.map _)).nodup hnames
  rw [(of_documents_eq_ok h).2]
  refine Dict.get?_ofList_of_mem hdifferent (List.mem_filterMap.mpr ⟨v, hv, ?_⟩)
  rw [hroot, Option.map_some]

/-- The document of a version holds the schema of its kind exactly if the list goes by another name
and the kind by none of the shared ones, and the schema of the list exactly if the list goes by none
of these. -/
theorem documents_keepRoots_iff (h : r.documents = .ok documents)
    (hnames : (r.versions.map (·.name)).Nodup) {v : ResourceVersion} (hv : v ∈ r.servedVersions)
    {root : Schema} (hroot : v.schema? = some root) :
    ∃ doc, Dict.get? documents v.name = some doc ∧
      ((∃ s, Dict.get? doc.schemas (componentName r.group v.name r.names.kind) = some s ∧
          IsKindOf r.group v.name r.names.kind root s) ↔
        r.names.listKindName ≠ r.names.kind ∧
          componentName r.group v.name r.names.kind ∉ Vocabulary.schemas.keys) ∧
      ((∃ s, Dict.get? doc.schemas (componentName r.group v.name r.names.listKindName) = some s ∧
          IsListOf (componentName r.group v.name r.names.kind) s) ↔
        componentName r.group v.name r.names.listKindName ∉ Vocabulary.schemas.keys) :=
  ⟨_, get?_documents h hnames hv hroot, Extract.exists_isKindOf_iff r v.name root,
    Extract.exists_isListOf_iff r v.name root⟩

/-- A version whose schema says something of the kind already. -/
def widgetVersion : ResourceVersion where
  name := "v1"
  served := true
  validation := some ⟨some (({} : Schema).withProperty "kind"
    ((Schema.typed "string").withDescription "What it is."))⟩

def widget : ResourceDefinition where
  metadata := { name := "widgets.a.b" }
  group := "a.b"
  names := { kind := "Widget", plural := "widgets" }
  versions := [widgetVersion, { name := "v2" }]

theorem widget_keepRoots :
    ∃ documents root doc, widget.documents = .ok documents ∧
      (widget.versions.map (·.name)).Nodup ∧ widgetVersion ∈ widget.servedVersions ∧
      widgetVersion.schema? = some root ∧ Dict.get? documents "v1" = some doc ∧
      (∃ s, Dict.get? doc.schemas "a.b.v1.Widget" = some s ∧
        IsKindOf "a.b" "v1" "Widget" root s) ∧
      ∃ s, Dict.get? doc.schemas "a.b.v1.WidgetList" = some s ∧ IsListOf "a.b.v1.Widget" s := by
  have hok : ∃ documents, widget.documents = .ok documents := ⟨_, rfl⟩
  obtain ⟨documents, h⟩ := hok
  have hnames : (widget.versions.map (·.name)).Nodup := by decide
  have hv : widgetVersion ∈ widget.servedVersions := List.mem_cons_self
  obtain ⟨doc, hdoc, hkind, hlist⟩ := documents_keepRoots_iff h hnames hv rfl
  exact ⟨documents, _, doc, h, hnames, hv, rfl, hdoc, hkind.mpr ⟨by decide, by decide⟩,
    hlist.mpr (by decide)⟩

/-- A kind that goes by the name of a shared schema. -/
def namedTime : ResourceDefinition where
  metadata := { name := "times" }
  group := "io.k8s.apimachinery.pkg.apis.meta"
  names := { kind := "Time", plural := "times" }
  versions := [{ name := "v1", served := true, validation := some ⟨some {}⟩ }]

/-- The shared schema stands in the place of the kind. -/
theorem namedTime_lost :
    ∃ documents doc, namedTime.documents = .ok documents ∧
      (namedTime.versions.map (·.name)).Nodup ∧
      namedTime.versions.map (fun v => (v.served, v.schema?)) = [(true, some {})] ∧
      Dict.get? documents "v1" = some doc ∧
      Dict.get? doc.schemas (componentName namedTime.group "v1" namedTime.names.kind) =
        some Vocabulary.timeSchema ∧
      ¬IsKindOf namedTime.group "v1" namedTime.names.kind {} Vocabulary.timeSchema := by
  refine ⟨_, _, rfl, by decide, rfl, rfl, by rfl, fun h => ?_⟩
  obtain ⟨p, hp, _⟩ := h.kind
  cases hp

end ResourceDefinition

end ResourceModels
