import ResourceModels.Proofs.JsonSchema.Files
import ResourceModels.Proofs.OpenApi
import ResourceModels.Proofs.Schema.Rereading
import ResourceModels.Proofs.Schema.Shapes

/-!
# What a schema for editors says

Each schema within a schema is converted by itself. It is closed to further properties if it is an
object that says nothing of them, its reference to a component becomes the name of a file, and the
rest stays. The schema that is written can be read and converted again. That changes nothing but the
names of components that look like references themselves: the name of the file of such a component
still begins like a reference.
-/

namespace ResourceModels.JsonSchema

open Schema (componentStart componentRef refTarget?)

/-- An object that says nothing of further properties. -/
def Closes (n : Schema) : Prop :=
  n.keywords.typeName = some "object" ∧ n.additional = none ∧
    n.keywords.extension? "x-kubernetes-preserve-unknown-fields" ≠ some (.bool true)

/-- A node without its parts and without what conversion may change in it. -/
def untouched (n : Schema) : Schema :=
  { n.shape with keywords := { n.keywords with reference := none }, additional := none }

/-- What stands in a converted schema in the place of a node. -/
structure Converted (n m : Schema) : Prop where
  linked : ∀ component, n.keywords.reference = some (componentRef component) →
    m.keywords.reference = some (fileName component)
  reference : (∀ component, n.keywords.reference ≠ some (componentRef component)) →
    m.keywords.reference = n.keywords.reference
  closed : Closes n → m.additional = some (.flag false)
  additional : ¬Closes n → m.shape.additional = n.shape.additional
  rest : untouched m = untouched n

theorem extensionFlag_eq_true {k : Keywords} {key : String} :
    k.extensionFlag key = true ↔ k.extension? key = some (.bool true) := by
  rw [Keywords.extensionFlag]
  rcases k.extension? key with _ | (_ | _ | _ | _ | _ | _ | _) <;> simp [Json.bool?]

theorem isSilent_iff {n : Schema} : isSilent n = true ↔ Closes n := by
  rw [isSilent, Closes, ne_eq, ← extensionFlag_eq_true]
  simp [Keywords.isType, and_assoc]

theorem shape_eq_untouched (m : Schema) : m.shape =
    { untouched m with
      keywords := { (untouched m).keywords with reference := m.keywords.reference }
      additional := m.shape.additional } := rfl

/-- What stands in the place of a node is the same but for its parts. -/
theorem Converted.shape_eq {n m m' : Schema} (h : Converted n m) (h' : Converted n m') :
    m.shape = m'.shape := by
  have hreference : m.keywords.reference = m'.keywords.reference := by
    by_cases hlocal : ∃ component, n.keywords.reference = some (componentRef component)
    · obtain ⟨component, href⟩ := hlocal
      rw [h.linked component href, h'.linked component href]
    · have hforeign := not_exists.mp hlocal
      rw [h.reference hforeign, h'.reference hforeign]
  have hadditional : m.shape.additional = m'.shape.additional := by
    by_cases hcloses : Closes n
    · simp only [Schema.shape, Schema.withParts, h.closed hcloses, h'.closed hcloses]
    · rw [h.additional hcloses, h'.additional hcloses]
  rw [shape_eq_untouched m, shape_eq_untouched m', h.rest.trans h'.rest.symm, hreference,
    hadditional]

theorem Converted.not_closes {n m : Schema} (h : Converted n m) : ¬Closes m := by
  rintro ⟨htype, hnone, hflag⟩
  have hrest := h.rest
  simp only [untouched, Schema.mk.injEq, Keywords.mk.injEq] at hrest
  have hkeep : ¬Closes n := fun hn => by simp [h.closed hn] at hnone
  refine hkeep ⟨hrest.1.2.1 ▸ htype, ?_, ?_⟩
  · have hadditional := h.additional hkeep
    simpa [Schema.shape, Schema.withParts, hnone] using hadditional.symm
  · have hextensions : m.keywords.extensions = n.keywords.extensions := by simp [hrest.1]
    rwa [Keywords.extension?, ← hextensions]

theorem relink_of_foreign {k : Keywords}
    (h : ∀ component, k.reference ≠ some (componentRef component)) : relink k = k := by
  have hnone : k.reference.bind refTarget? = none := by
    cases hk : k.reference with
    | none => rfl
    | some reference =>
      refine Option.eq_none_iff_forall_ne_some.mpr fun component hc => h component ?_
      rw [hk, OpenApi.refTarget?_eq_some.mp hc]
  rw [relink, hnone]

theorem relink_local {k : Keywords} {component : String}
    (h : k.reference = some (componentRef component)) :
    relink k = { k with reference := some (fileName component) } := by
  rw [relink, h, OpenApi.bind_refTarget?_componentRef]

theorem parts_settle (s : Schema) : (settle s).parts = s.parts := by
  rw [settle, close]
  split
  · next h =>
    have hnone : s.additional = none := (isSilent_iff.mp h).2.1
    simp only [Schema.parts, hnone]
    rfl
  · rfl

theorem additional_settle (s : Schema) :
    (settle s).additional = if isSilent s then some (.flag false) else s.additional := by
  rw [settle, close]
  split <;> rfl

theorem untouched_settle (s : Schema) : untouched (settle s) = untouched s := by
  simp only [settle, close, relink]
  split <;> split <;> rfl

theorem untouched_withParts (φ : Schema → Schema) (s : Schema) :
    untouched (s.withParts φ) = untouched s := by
  have hshape := Schema.shape_withParts φ s
  rw [untouched, hshape]
  rfl

theorem isSilent_withParts (φ : Schema → Schema) (s : Schema) :
    isSilent (s.withParts φ) = isSilent s := by
  simp only [isSilent, Schema.withParts, Option.isNone_map]

theorem shape_additional_settle (s : Schema) (h : ¬Closes s) :
    (settle s).shape.additional = s.shape.additional := by
  have hkeep := additional_settle s
  rw [if_neg (mt isSilent_iff.mp h)] at hkeep
  simp only [Schema.shape, Schema.withParts, hkeep]

theorem converted_mapNodes (s : Schema) : Converted s (Schema.mapNodes settle s) := by
  rw [Schema.mapNodes_eq_withParts]
  have hcloses : ∀ φ, Closes (s.withParts φ) ↔ Closes s := fun φ => by
    rw [← isSilent_iff, isSilent_withParts, isSilent_iff]
  refine ⟨fun component href => ?_, fun hforeign => ?_, fun hclose => ?_, fun hkeep => ?_, ?_⟩
  · rw [keywords_settle]
    exact relink_componentRef href
  · rw [keywords_settle]
    exact congrArg Keywords.reference (relink_of_foreign hforeign)
  · rw [additional_settle, isSilent_withParts, if_pos (isSilent_iff.mpr hclose)]
  · rw [shape_additional_settle _ (mt (hcloses _).mp hkeep), Schema.shape_withParts]
  · rw [untouched_settle, untouched_withParts]

theorem shapes_eq {given written written' : List Schema} (h : List.Forall₂ Converted given written)
    (h' : List.Forall₂ Converted given written') :
    written.map Schema.shape = written'.map Schema.shape := by
  induction h generalizing written' with
  | nil =>
    cases h'
    rfl
  | cons hm _ ih =>
    cases h' with
    | cons hm' h' => rw [List.map_cons, List.map_cons, hm.shape_eq hm', ih h']

/-- A schema whose nodes are converted, one by one, is the one that is written. -/
theorem converted_nodes_iff (s u : Schema) :
    List.Forall₂ Converted s.nodes u.nodes ↔ u = Schema.mapNodes settle s := by
  have hown : List.Forall₂ Converted s.nodes (Schema.mapNodes settle s).nodes := by
    rw [Schema.nodes_mapNodes parts_settle, List.forall₂_map_right_iff, List.forall₂_same]
    exact fun n _ => converted_mapNodes n
  exact ⟨fun h => Schema.eq_of_shapes (shapes_eq h hown), fun h => h ▸ hown⟩

section

variable {k : Keywords}

theorem fileName_eq (component : String) :
    (fileName component).toList =
      component.toList.map (fun c => if c = '.' then '-' else c) ++ ".schema.json".toList := by
  rw [fileName, String.toList_append, String.toList_ofList]

/-- A text without dots and dashes begins a name exactly if it begins the name of the file. -/
theorem prefix_dashed_iff {start name tail : List Char} (hdot : '.' ∉ start)
    (hdash : '-' ∉ start) :
    start <+: name.map (fun c => if c = '.' then '-' else c) ++ '.' :: tail ↔ start <+: name := by
  induction start generalizing name with
  | nil => simp
  | cons c start ih =>
    rw [List.mem_cons, not_or] at hdot hdash
    cases name with
    | nil => simp [List.cons_prefix_cons, Ne.symm hdot.1]
    | cons d name =>
      rw [List.map_cons, List.cons_append, List.cons_prefix_cons, List.cons_prefix_cons,
        ih hdot.2 hdash.2]
      by_cases hd : d = '.'
      · subst hd
        simp [Ne.symm hdash.1, Ne.symm hdot.1]
      · rw [if_neg hd]

theorem exists_componentRef_iff (reference : String) :
    (∃ component, reference = componentRef component) ↔
      componentStart.toList <+: reference.toList := by
  constructor
  · rintro ⟨component, rfl⟩
    rw [componentRef, String.toList_append]
    exact List.prefix_append ..
  · rintro ⟨rest, hrest⟩
    refine ⟨String.ofList rest, String.toList_inj.mp ?_⟩
    rw [componentRef, String.toList_append, String.toList_ofList, hrest]

/-- The name of a file begins like a reference if the name of the component does. -/
theorem fileName_isLocal_iff (component : String) :
    (∃ other, fileName component = componentRef other) ↔
      ∃ other, component = componentRef other := by
  have htail : ".schema.json".toList = '.' :: "schema.json".toList := by decide
  rw [exists_componentRef_iff, exists_componentRef_iff, fileName_eq, htail,
    prefix_dashed_iff (by decide) (by decide)]

theorem fileName_ne_componentRef (component : String) :
    fileName component ≠ componentRef component := by
  intro h
  have hlength := congrArg (fun text : String => text.toList.length) h
  simp only [fileName_eq, componentRef, String.toList_append, List.length_append,
    List.length_map] at hlength
  have htail : ".schema.json".toList.length = 12 := by decide
  have hstart : componentStart.toList.length = 21 := by decide
  omega

/-- A reference is relinked once and for all, unless it names a component that looks like one. -/
theorem relink_relink_iff : relink (relink k) = relink k ↔
    ∀ component, k.reference ≠ some (componentRef (componentRef component)) := by
  by_cases hlocal : ∃ component, k.reference = some (componentRef component)
  · obtain ⟨component, href⟩ := hlocal
    have hagain : (∀ other, k.reference ≠ some (componentRef (componentRef other))) ↔
        ¬∃ other, component = componentRef other := by
      rw [not_exists, href]
      simp [componentRef]
    rw [hagain, ← fileName_isLocal_iff, relink_local href]
    constructor
    · rintro h ⟨other, hother⟩
      rw [relink_local (k := { k with reference := some (fileName component) })
        (congrArg some hother)] at h
      have hsame : fileName other = fileName component :=
        Option.some.inj (congrArg Keywords.reference h)
      exact fileName_ne_componentRef other (hsame.trans hother)
    · intro h
      exact relink_of_foreign fun other hother => h ⟨other, Option.some.inj hother⟩
  · have hforeign := not_exists.mp hlocal
    rw [relink_of_foreign hforeign, relink_of_foreign hforeign]
    exact iff_of_true rfl fun _ => hforeign _

end

theorem settle_eq_self_iff {m : Schema} (h : ¬Closes m) :
    settle m = m ↔ relink m.keywords = m.keywords := by
  have hown : settle m = { m with keywords := relink m.keywords } := by
    rw [settle, close, if_neg (mt isSilent_iff.mp h)]
  rw [hown]
  refine ⟨congrArg Schema.keywords, fun hk => ?_⟩
  rw [hk]
  cases m
  rfl

/-- Converting twice is converting once, unless a reference begins twice like one. -/
theorem mapNodes_mapNodes_iff {s : Schema} :
    Schema.mapNodes settle (Schema.mapNodes settle s) = Schema.mapNodes settle s ↔
      ∀ n ∈ s.nodes, ∀ component,
        n.keywords.reference ≠ some (componentRef (componentRef component)) := by
  rw [Schema.mapNodes_eq_self_iff parts_settle, Schema.nodes_mapNodes parts_settle,
    List.forall_mem_map]
  refine forall₂_congr fun n _ => ?_
  have hkeywords : (Schema.mapNodes settle n).keywords = relink n.keywords := by
    rw [Schema.mapNodes_eq_withParts, keywords_settle]
    rfl
  rw [settle_eq_self_iff (converted_mapNodes n).not_closes, hkeywords, relink_relink_iff]

theorem relink_inOrder {k : Keywords} (h : k.InOrder) : (relink k).InOrder := by
  rw [relink]
  split
  · exact ⟨h.sorted, h.apart, h.extensions, h.values, h.default⟩
  · exact h

theorem relink_defaultPresent {k : Keywords} (h : k.DefaultPresent) :
    (relink k).DefaultPresent := by
  rw [relink]
  split <;> exact h

/-- A schema that is read again from what is written of it. -/
structure Readable (s : Schema) : Prop where
  orderly : s.Orderly
  defaults : s.Throughout Keywords.DefaultPresent

section

variable {s : Schema}

theorem Readable.ofJson_toJson (h : Readable s) : Schema.ofJson s.toJson = .ok s := by
  rw [Schema.ofJson, Schema.ofValue_toJson .json h.orderly,
    Schema.settled_eq_self_iff.mpr h.defaults]

theorem readable_of_ofJson {j : Json} (h : Schema.ofJson j = .ok s) : Readable s := by
  have horderly : s.Orderly := Schema.orderly_of_ofValue h
  refine ⟨horderly, Schema.settled_eq_self_iff.mp ?_⟩
  have hagain := (Schema.ofJson_roundTrip j s h).2.1
  rw [Schema.ofJson, Schema.ofValue_toJson .json horderly] at hagain
  exact Except.ok.inj hagain

theorem Readable.mapNodes (h : Readable s) : Readable (Schema.mapNodes settle s) := by
  constructor
  · rw [Schema.Orderly, Schema.nodes_mapNodes parts_settle, List.forall_mem_map]
    intro n hn
    rw [Schema.mapNodes_eq_withParts, keywords_settle]
    refine ⟨relink_inOrder (h.orderly n hn).1, ?_⟩
    have hproperties : (settle (n.withParts (Schema.mapNodes settle))).properties =
        Dict.mapValues (Schema.mapNodes settle) n.properties := by
      rw [settle, close]
      split <;> rfl
    rw [hproperties]
    exact (h.orderly n hn).2.mapValues _
  · exact h.defaults.mapNodes (fun s _ hp => parts_settle s ▸ hp)
      fun s hs => keywords_settle s ▸ relink_defaultPresent hs

end

/-- What is written of a schema is the schema with each node converted. Of a schema that was read,
it is read again, and converting it again changes nothing exactly if no reference begins twice like
one. -/
theorem convert_nodewise (s : Schema) :
    (∃ t : Schema, convert s = t.toJson ∧
      ∀ u : Schema, List.Forall₂ Converted s.nodes u.nodes ↔ u = t) ∧
    ∀ j, Schema.ofJson j = .ok s →
      ∃ t, Schema.ofJson (convert s) = .ok t ∧ Schema.ofJson (convert s).sorted = .ok t ∧
        (convert t = convert s ↔ ∀ n ∈ s.nodes, ∀ component,
          n.keywords.reference ≠ some (componentRef (componentRef component))) := by
  refine ⟨⟨_, rfl, converted_nodes_iff s⟩, fun j hj => ?_⟩
  have hread : Readable s := readable_of_ofJson hj
  have hagain := hread.mapNodes.ofJson_toJson
  refine ⟨Schema.mapNodes settle s, hagain, (Schema.ofJson_roundTrip _ _ hagain).2.2, ?_⟩
  rw [← mapNodes_mapNodes_iff]
  constructor
  · intro hsame
    -- both are read again as the schema they were written from
    have htwice := hread.mapNodes.mapNodes.ofJson_toJson
    rw [show (Schema.mapNodes settle (Schema.mapNodes settle s)).toJson =
      (Schema.mapNodes settle s).toJson from hsame, hagain] at htwice
    exact (Except.ok.inj htwice).symm
  · exact congrArg Schema.toJson

theorem mapNodes_ref (component : String) : Schema.mapNodes settle (Schema.ref component) =
    { keywords := { reference := some (fileName component) } } := by
  have hname := OpenApi.bind_refTarget?_componentRef component
  simp [Schema.ref, Schema.mapNodes, Schema.mapNamed, Schema.mapOption, Schema.mapExtra,
    Schema.mapList, settle, close, isSilent, relink, Keywords.isType, hname]

theorem convert_ref (component : String) :
    convert (Schema.ref component) = .obj [("$ref", .str (fileName component))] := by
  rw [convert, mapNodes_ref]
  rfl

def ownedJson : Json := .obj [
  ("type", .str "object"),
  ("properties", .obj [
    ("owner", .obj [("$ref", .str "#/components/schemas/a.v1.Owner")]),
    ("labels", .obj [("type", .str "object"),
      ("additionalProperties", .obj [("type", .str "string")])])])]

def ownedSchema : Schema where
  keywords := { typeName := some "object" }
  properties := [
    ("labels", {
      keywords := { typeName := some "object" }
      additional := some (.schema (Schema.typed "string")) }),
    ("owner", Schema.ref "a.v1.Owner")]

def ownedConverted : Schema where
  keywords := { typeName := some "object" }
  properties := [
    ("labels", {
      keywords := { typeName := some "object" }
      additional := some (.schema (Schema.typed "string")) }),
    ("owner", { keywords := { reference := some "a-v1-Owner.schema.json" } })]
  additional := some (.flag false)

theorem ownedJson_read : Schema.ofJson ownedJson = .ok ownedSchema := rfl

theorem ownedSchema_mapNodes : Schema.mapNodes settle ownedSchema = ownedConverted := by
  have hname : fileName "a.v1.Owner" = "a-v1-Owner.schema.json" := by decide +kernel
  simp [ownedSchema, ownedConverted, Schema.mapNodes, Schema.mapNamed, Schema.mapOption,
    Schema.mapExtra, Schema.mapList, settle, close, isSilent, relink, Keywords.isType,
    Keywords.extensionFlag, Keywords.extension?, Dict.get?, Schema.typed, mapNodes_ref, hname]

theorem not_doubled_iff {k : Keywords} :
    (∀ component, k.reference ≠ some (componentRef (componentRef component))) ↔
      (k.reference.bind refTarget?).bind refTarget? = none := by
  simp only [Option.eq_none_iff_forall_ne_some, ne_eq, Option.bind_eq_some_iff,
    OpenApi.refTarget?_eq_some]
  constructor
  · rintro h component ⟨_, ⟨_, href, rfl⟩, rfl⟩
    exact h component href
  · exact fun h component href => h component ⟨_, ⟨_, href, rfl⟩, rfl⟩

/-- The object that says nothing of further properties is closed, and the other is not. -/
theorem owned_convert_nodewise : Schema.ofJson ownedJson = .ok ownedSchema ∧
    convert ownedSchema = ownedConverted.toJson ∧
      ∃ t, Schema.ofJson (convert ownedSchema) = .ok t ∧ convert t = convert ownedSchema := by
  obtain ⟨t, hagain, -, htwice⟩ := (convert_nodewise ownedSchema).2 ownedJson ownedJson_read
  refine ⟨ownedJson_read, congrArg Schema.toJson ownedSchema_mapNodes, t, hagain, htwice.mpr ?_⟩
  simp only [not_doubled_iff]
  decide +kernel

/-- Converting what is written of a reference that begins twice like one names another file. -/
theorem doubled_convert_twice : ∃ j s t, Schema.ofJson j = .ok s ∧
    Schema.ofJson (convert s) = .ok t ∧ convert t ≠ convert s := by
  have hfirst : fileName "#/components/schemas/X" = componentRef "X.schema.json" := by
    decide +kernel
  have hsecond : fileName "X.schema.json" = "X-schema-json.schema.json" := by decide +kernel
  refine ⟨.obj [("$ref", .str (componentRef "#/components/schemas/X"))],
    Schema.ref "#/components/schemas/X", Schema.ref "X.schema.json", rfl, ?_, ?_⟩
  · rw [convert_ref, hfirst]
    rfl
  · rw [convert_ref, convert_ref, hfirst, hsecond]
    simp only [ne_eq, Json.obj.injEq, List.cons.injEq, Prod.mk.injEq, Json.str.injEq, true_and,
      and_true]
    decide +kernel

end ResourceModels.JsonSchema
