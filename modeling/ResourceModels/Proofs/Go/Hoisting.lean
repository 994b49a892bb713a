import ResourceModels.Proofs.Go.Declarations
import ResourceModels.Proofs.Go.Numbering

/-!
# The types of a document

Which types a file declares, and with which constants, is computed from the document alone: every
component in order declares itself and the structs and enumerations within it, each under the first
form of its name that no component and no earlier type has.
-/

namespace ResourceModels.Go

/-- A declared type with the names of its constants. -/
structure NamedType where
  name : String
  constants : List String
deriving DecidableEq, Repr

def Declaration.named (d : Declaration) : NamedType := ⟨d.name, d.body.constantNames⟩

namespace Emission

def typeNames (types : List NamedType) : List String := types.map (·.name)

def enumerationConstants (name : String) (k : Keywords) : List String :=
  (enumeration name k).constantNames

mutual

/-- The types that are declared for a schema within a component, the last one first. -/
def hoisted (components : Dict String) : Schema → String → List String → List NamedType
  | ⟨k, properties, items, additional, allOf, anyOf, oneOf, not⟩, hint, begun =>
    let name := unique (begun ++ Dict.values components) (wantedName k hint)
    match form ⟨k, properties, items, additional, allOf, anyOf, oneOf, not⟩ with
    | .sole _ => hoistedInSole components allOf hint begun
    | .struct => hoistedInFields components name [] properties (name :: begun) ++ [⟨name, []⟩]
    | .enumeration => [⟨name, enumerationConstants name k⟩]
    | .array _ => hoistedInItems components items hint begun
    | .map (some _) => hoistedInExtra components additional (hint ++ "Value") begun
    | _ => []
termination_by structural s => s

def hoistedInSole (components : Dict String) :
    List Schema → String → List String → List NamedType
  | [], _, _ => []
  | s :: _, hint, begun => hoisted components s hint begun
termination_by structural members => members

def hoistedInItems (components : Dict String) :
    Option Schema → String → List String → List NamedType
  | none, _, _ => []
  | some s, hint, begun => hoisted components s hint begun
termination_by structural items => items

def hoistedInExtra (components : Dict String) :
    Option (Extra Schema) → String → List String → List NamedType
  | some (.schema s), hint, begun => hoisted components s hint begun
  | _, _, _ => []
termination_by structural additional => additional

def hoistedInFields (components : Dict String) (typeName : String) (taken : List String) :
    List (String × Schema) → List String → List NamedType
  | [], _ => []
  | (property, s) :: rest, begun =>
    let types := hoisted components s (fieldHint typeName taken property) begun
    hoistedInFields components typeName (fieldName taken property :: taken) rest
      (typeNames types ++ begun) ++ types
termination_by structural properties => properties

end

/-- The types that a component declares, itself first of all. -/
def componentTypes (components : Dict String) (name : String) (s : Schema) (begun : List String) :
    List NamedType :=
  if isStruct s then
    hoistedInFields components name [] s.properties (name :: begun) ++ [⟨name, []⟩]
  else if isEnumeration s.keywords then [⟨name, enumerationConstants name s.keywords⟩]
  else hoisted components s (name ++ "Value") (name :: begun) ++ [⟨name, []⟩]

def allTypes (components : Dict String) : List (String × Schema) → List String → List NamedType
  | [], _ => []
  | (component, s) :: rest, begun =>
    let types := componentTypes components (declaredName components component) s begun
    allTypes components rest (typeNames types ++ begun) ++ types

end Emission

/-- The types that the file of a document declares, the last one first. -/
def documentTypes (doc : OpenApi) : List NamedType :=
  Emission.allTypes (Emission.componentNames [] doc.schemas) doc.schemas []

namespace Emission

variable {components : Dict String}

theorem hoisted_eq (s : Schema) (hint : String) (begun : List String) :
    hoisted components s hint begun =
      let name := unique (begun ++ Dict.values components) (wantedName s.keywords hint)
      match form s with
      | .sole member => hoisted components member hint begun
      | .struct =>
        hoistedInFields components name [] s.properties (name :: begun) ++ [⟨name, []⟩]
      | .enumeration => [⟨name, enumerationConstants name s.keywords⟩]
      | .array items => hoistedInItems components items hint begun
      | .map values => hoistedInItems components values (hint ++ "Value") begun
      | _ => [] := by
  obtain ⟨k, properties, items, additional, allOf, anyOf, oneOf, not⟩ := s
  rw [hoisted]
  cases hf : form ⟨k, properties, items, additional, allOf, anyOf, oneOf, not⟩ with
  | sole member =>
    have hm := allOf_of_sole hf
    dsimp only at hm
    subst hm
    rfl
  | array part =>
    have hi := items_of_array hf
    dsimp only at hi
    subst hi
    rfl
  | map part =>
    cases part with
    | none => rfl
    | some values =>
      have hv := additional_of_map hf
      dsimp only at hv
      subst hv
      rfl
  | _ => rfl

/-- A property of the names that types within a component get, from one of the hints and one of the
schemas that they are named by. -/
structure NamesHold (components : Dict String) (K : Keywords → Prop) (H P : String → Prop) :
    Prop where
  field : ∀ typeName taken property, H typeName ∨ P typeName →
    H (fieldHint typeName taken property)
  value : ∀ hint, H hint → H (hint ++ "Value")
  name : ∀ k hint begun, K k → H hint →
    P (unique (begun ++ Dict.values components) (wantedName k hint))

namespace NamesHold

variable {K : Keywords → Prop} {H P : String → Prop}

theorem hoistedInFields (hn : NamesHold components K H P) {properties : List (String × Schema)}
    (hparts : ∀ part ∈ properties.map (·.2), ∀ hint begun, H hint →
      ∀ t ∈ hoisted components part hint begun, P t.name)
    {typeName : String} (htype : H typeName ∨ P typeName) (taken begun : List String) :
    ∀ t ∈ Emission.hoistedInFields components typeName taken properties begun, P t.name := by
  induction properties generalizing taken begun with
  | nil => nofun
  | cons property rest ih =>
    intro t ht
    rw [Emission.hoistedInFields] at ht
    rcases List.mem_append.mp ht with ht | ht
    · exact ih (fun part hp => hparts part (List.mem_cons_of_mem _ hp)) _ _ t ht
    · exact hparts property.2 List.mem_cons_self _ _ (hn.field _ _ _ htype) t ht

theorem hoisted (hn : NamesHold components K H P) {s : Schema} (hs : s.Throughout K)
    {hint : String} (hhint : H hint) (begun : List String) :
    ∀ t ∈ Emission.hoisted components s hint begun, P t.name := by
  induction s using form_induction generalizing hint begun with
  | step s ih =>
    have hpart : ∀ part ∈ (form s).parts s, ∀ hint begun, H hint →
        ∀ t ∈ Emission.hoisted components part hint begun, P t.name :=
      fun part hp hint begun hh => ih part hp (hs.part (mem_parts_of_form hp)) hh begun
    have hname := hn.name s.keywords hint begun hs.keywords hhint
    rw [hoisted_eq]
    cases hf : form s with
    | sole member => exact hpart member (by simp [hf, Form.parts]) hint begun hhint
    | struct =>
      intro t ht
      rcases List.mem_append.mp ht with ht | ht
      · exact hn.hoistedInFields (fun part hp => hpart part (by rwa [hf])) (.inr hname) _ _ t ht
      · rw [List.mem_singleton.mp ht]
        exact hname
    | enumeration =>
      intro t ht
      rw [List.mem_singleton.mp ht]
      exact hname
    | array items =>
      cases items with
      | none => exact List.forall_mem_nil _
      | some s => exact hpart s (by simp [hf, Form.parts]) hint begun hhint
    | map values =>
      cases values with
      | none => exact List.forall_mem_nil _
      | some s => exact hpart s (by simp [hf, Form.parts]) _ begun (hn.value hint hhint)
    | _ => exact List.forall_mem_nil _

theorem componentTypes (hn : NamesHold components K H P) {s : Schema} (hs : s.Throughout K)
    {name : String} (hname : H name) (begun : List String) :
    ∀ t ∈ Emission.componentTypes components name s begun, t.name = name ∨ P t.name := by
  intro t ht
  unfold Emission.componentTypes at ht
  split at ht
  · rcases List.mem_append.mp ht with ht | ht
    · refine .inr (hn.hoistedInFields (fun part hp hint begun hh => ?_) (.inl hname) _ _ t ht)
      exact hn.hoisted (hs.part (Schema.mem_parts.mpr (.inl hp))) hh begun
    · exact .inl (congrArg NamedType.name (List.mem_singleton.mp ht))
  · split at ht
    · exact .inl (congrArg NamedType.name (List.mem_singleton.mp ht))
    · rcases List.mem_append.mp ht with ht | ht
      · exact .inr (hn.hoisted hs (hn.value name hname) _ t ht)
      · exact .inl (congrArg NamedType.name (List.mem_singleton.mp ht))

theorem allTypes (hn : NamesHold components K P P) {schemas : List (String × Schema)}
    (h : ∀ c ∈ schemas, c.2.Throughout K)
    (hnames : ∀ c ∈ schemas, P (declaredName components c.1)) (begun : List String) :
    ∀ t ∈ Emission.allTypes components schemas begun, P t.name := by
  induction schemas generalizing begun with
  | nil => nofun
  | cons c rest ih =>
    intro t ht
    rw [Emission.allTypes] at ht
    rcases List.mem_append.mp ht with ht | ht
    · exact ih (fun d hd => h d (List.mem_cons_of_mem _ hd))
        (fun d hd => hnames d (List.mem_cons_of_mem _ hd)) _ t ht
    · have hname := hnames c List.mem_cons_self
      rcases hn.componentTypes (h c List.mem_cons_self) hname begun t ht with heq | htypes
      · rw [heq]
        exact hname
      · exact htypes

end NamesHold

/-- The types that are declared so far. -/
def named (e : Emission) : List NamedType := e.declarations.map (·.2.named)

/-- A run from `e` to `e'` begins and declares the given types. -/
structure Declares (e e' : Emission) (types : List NamedType) : Prop where
  begun : e'.begun = typeNames types ++ e.begun
  declared : e'.named.Perm (types ++ e.named)

namespace Declares

variable {e e₁ e' : Emission} {types more : List NamedType}

theorem refl (e : Emission) : Declares e e [] := ⟨rfl, List.Perm.refl _⟩

theorem imported (e : Emission) (source : Option (String × Option String)) :
    Declares e (e.imported source) [] := by
  rcases source with _ | ⟨path, name⟩
  · exact refl e
  · exact ⟨rfl, List.Perm.refl _⟩

theorem trans (h : Declares e e₁ types) (h' : Declares e₁ e' more) :
    Declares e e' (more ++ types) where
  begun := by simp [h'.begun, h.begun, typeNames]
  declared := by
    rw [List.append_assoc]
    exact h'.declared.trans (h.declared.append_left more)

theorem declaring {d : Declaration} (h : Declares (e.beginning d.name) e₁ types)
    (hd : d.name ∉ Dict.keys e₁.declarations) :
    Declares e (e₁.declaring d) (types ++ [d.named]) where
  begun := by simp [Emission.declaring, h.begun, beginning, typeNames, Declaration.named]
  declared := by
    have hinsert : (e₁.declaring d).named.Perm (d.named :: e₁.named) :=
      List.Perm.map (fun p : String × Declaration => p.2.named) (Dict.insert_perm hd d)
    refine hinsert.trans ((h.declared.cons d.named).trans ?_)
    rw [List.append_assoc]
    exact List.perm_middle.symm

end Declares

/-- All types that are declared were begun. -/
def AllBegun (e : Emission) : Prop := Dict.keys e.declarations ⊆ e.begun

theorem AllBegun.beginning {e : Emission} (h : e.AllBegun) (name : String) :
    (e.beginning name).AllBegun := fun _ hk => List.mem_cons_of_mem _ (h hk)

/-- A run declares no type that was begun before it, and none that it does not begin. -/
structure DeclaresBegun (e e' : Emission) : Prop where
  begun : e.begun ⊆ e'.begun
  fresh : ∀ name ∈ Dict.keys e'.declarations, name ∈ Dict.keys e.declarations ∨ name ∉ e.begun
  within : e.AllBegun → e'.AllBegun

theorem kept_declaresBegun : Kept DeclaresBegun where
  refl e := ⟨fun _ h => h, fun _ h => .inl h, fun h => h⟩
  trans h₁ h₂ := by
    refine ⟨fun _ h => h₂.begun (h₁.begun h), fun name hname => ?_,
      fun h => h₂.within (h₁.within h)⟩
    rcases h₂.fresh name hname with hname | hname
    · exact h₁.fresh name hname
    · exact .inr fun h => hname (h₁.begun h)
  imported e source := by
    rcases source with _ | ⟨path, name⟩
    all_goals exact ⟨fun _ h => h, fun _ h => .inl h, fun h => h⟩
  declared hd _ hR := by
    refine ⟨fun _ h => hR.begun (List.mem_cons_of_mem _ h), fun name hname => ?_, fun h => ?_⟩
    · rcases Dict.mem_keys_insert.mp hname with rfl | hname
      · exact .inr hd
      · exact (hR.fresh name hname).imp_right fun h hb => h (List.mem_cons_of_mem _ hb)
    · intro name hname
      rcases Dict.mem_keys_insert.mp hname with rfl | hname
      · exact hR.begun List.mem_cons_self
      · exact hR.within (h.beginning _) hname

theorem DeclaresBegun.not_mem_keys {e e₁ : Emission} {name : String}
    (h : DeclaresBegun (e.beginning name) e₁) (hfree : name ∉ e.begun)
    (he : e.AllBegun) : name ∉ Dict.keys e₁.declarations := by
  intro hname
  rcases h.fresh name hname with hname | hname
  · exact hfree (he hname)
  · exact hname List.mem_cons_self

theorem Declares.declaring_now {e : Emission} {d : Declaration} (he : e.AllBegun)
    (hfree : d.name ∉ e.begun) :
    Declares e ((e.beginning d.name).declaring d) [d.named] :=
  (Declares.refl _).declaring fun hk => hfree (he hk)

theorem declares_fieldsOf {properties : List (String × Schema)}
    (hparts : ∀ part ∈ properties.map (·.2), ∀ hint t e e',
      e.AllBegun → (typeOf components part hint).run e = .ok (t, e') →
        Declares e e' (hoisted components part hint e.begun))
    {typeName : String} {required taken : List String} {fields : List Field} {e e' : Emission}
    (he : e.AllBegun)
    (h : (fieldsOf components typeName required taken properties).run e = .ok (fields, e')) :
    Declares e e' (hoistedInFields components typeName taken properties e.begun) := by
  induction properties generalizing taken fields e with
  | nil =>
    obtain ⟨_, rfl⟩ := run_fieldsOf_nil.mp h
    exact .refl _
  | cons property rest ih =>
    obtain ⟨type, e₁, more, ht, hrest, _⟩ := run_fieldsOf_cons.mp h
    have hfirst := hparts property.2 List.mem_cons_self _ _ _ _ he ht
    have he₁ := (kept_declaresBegun.typeOf ht).within he
    have hmore := ih (fun part hp => hparts part (List.mem_cons_of_mem _ hp)) he₁ hrest
    -- the rest is hoisted beside what the first property has begun
    rw [hfirst.begun] at hmore
    exact hfirst.trans hmore

theorem declares_partType {part : Option Schema}
    (hparts : ∀ s ∈ part.toList, ∀ hint t e e',
      e.AllBegun → (typeOf components s hint).run e = .ok (t, e') →
        Declares e e' (hoisted components s hint e.begun))
    {hint : String} {t : TypeExpr} {e e' : Emission} (he : e.AllBegun)
    (h : (partType components part hint).run e = .ok (t, e')) :
    Declares e e' (hoistedInItems components part hint e.begun) := by
  cases part with
  | none =>
    obtain ⟨_, rfl⟩ := run_pure.mp h
    exact .refl _
  | some s => exact hparts s (by simp) hint t e e' he h

theorem declares_typeOf {s : Schema} {hint : String} {t : TypeExpr} {e e' : Emission}
    (he : e.AllBegun)
    (h : (typeOf components s hint).run e = .ok (t, e')) :
    Declares e e' (hoisted components s hint e.begun) := by
  induction s using form_induction generalizing hint t e e' with
  | step s ih =>
    rw [hoisted_eq]
    cases typeRun_of_run h with
    | spelledOut hf => rw [hf]; exact .imported e _
    | reference hf ht hn => rw [hf]; exact .refl e
    | sole hf hm => rw [hf]; exact ih _ (by simp [hf, Form.parts]) he hm
    | any hf => rw [hf]; exact .refl e
    | struct hf hn hr =>
      subst hn
      have hfree : hoistedName components e s hint ∉ e.begun := hoistedName_not_mem_begun e s hint
      -- the name is begun before the fields, which for that reason never declare it themselves
      have hfields := declares_fieldsOf
        (fun part hp hint t e e' he h => ih part (by simpa [hf, Form.parts] using hp) he h)
        (he.beginning _) hr
      have hname := (kept_declaresBegun.fieldsOf hr).not_mem_keys hfree he
      rw [hf]
      exact hfields.declaring hname
    | enumeration hf hn =>
      rw [hf]
      subst hn
      exact .declaring_now (d := ⟨_, _, _⟩) he (hoistedName_not_mem_begun e s hint)
    | scalar hf =>
      rw [hf]
      split
      · exact .imported e _
      · exact .refl e
    | array hf hi =>
      rw [hf]
      exact declares_partType
        (fun part hp hint t e e' he h => ih part (by simpa [hf, Form.parts] using hp) he h) he hi
    | map hf hv =>
      rw [hf]
      exact declares_partType
        (fun part hp hint t e e' he h => ih part (by simpa [hf, Form.parts] using hp) he h) he hv

theorem declares_declareComponent {component name : String} {s : Schema} {u : Unit}
    {e e' : Emission} (he : e.AllBegun)
    (h : (declareComponent components component name s).run e = .ok (u, e')) :
    Declares e e' (componentTypes components name s e.begun) := by
  obtain ⟨hfree, body, e₁, hbody, rfl⟩ := run_declareComponent h
  unfold componentTypes
  cases hbody with
  | struct hs hr =>
    rw [if_pos hs]
    have hname := (kept_declaresBegun.fieldsOf hr).not_mem_keys hfree he
    exact (declares_fieldsOf (fun _ _ _ _ _ _ => declares_typeOf) (he.beginning name) hr).declaring
      hname
  | enumeration hs hv =>
    rw [if_neg (by simp [hs]), if_pos hv]
    exact .declaring_now (d := ⟨_, _, _⟩) he hfree
  | synonym hs hv ht =>
    rw [if_neg (by simp [hs]), if_neg (by simp [hv])]
    have hname := (kept_declaresBegun.typeOf ht).not_mem_keys hfree he
    exact (declares_typeOf (he.beginning name) ht).declaring hname

theorem declares_declareAll {schemas : List (String × Schema)} {e e' : Emission}
    (he : e.AllBegun) (h : declareAll components e schemas = .ok e') :
    Declares e e' (allTypes components schemas e.begun) := by
  induction schemas generalizing e with
  | nil => cases h; exact .refl _
  | cons c rest ih =>
    obtain ⟨e₁, hc, hrest⟩ := declareAll_cons_ok h
    have hfirst := declares_declareComponent he hc
    have hmore := ih ((kept_declaresBegun.declareComponent hc).within he) hrest
    rw [hfirst.begun] at hmore
    exact hfirst.trans hmore

theorem mem_typeNames_allTypes (components : Dict String) {schemas : List (String × Schema)}
    {component : String} (h : component ∈ Dict.keys schemas) (begun : List String) :
    declaredName components component ∈ typeNames (allTypes components schemas begun) := by
  induction schemas generalizing begun with
  | nil => cases h
  | cons c rest ih =>
    rw [allTypes, typeNames, List.map_append, List.mem_append]
    rcases List.mem_cons.mp h with rfl | h
    · right
      unfold componentTypes
      split
      · simp
      · split <;> simp
    · exact .inl (ih h _)

/-- Every name that a component is given is the name of a type. -/
theorem mem_documentTypes_of_mem_values {doc : OpenApi} {name : String}
    (h : name ∈ Dict.values (componentNames [] doc.schemas)) :
    name ∈ (documentTypes doc).map (·.name) := by
  obtain ⟨⟨component, _⟩, hmem, rfl⟩ := List.mem_map.mp h
  have hget := (sorted_componentNames .nil doc.schemas).get?_of_mem hmem
  have hkey := mem_keys_componentNames.mp (List.mem_map_of_mem (f := fun c => c.1) hmem)
  have hname := mem_typeNames_allTypes (componentNames [] doc.schemas)
    (hkey.resolve_left (by simp [Dict.keys])) []
  rwa [declaredName, hget] at hname

end Emission

def SourceFile.types (f : SourceFile) : List Declaration := f.declarations.map (·.2)

def SourceFile.typeNames (f : SourceFile) : List String := f.types.map (·.name)

variable {doc : OpenApi} {package : String} {f : SourceFile}

theorem types_perm_documentTypes (h : emit doc package = .ok f) :
    (f.types.map (·.named)).Perm (documentTypes doc) := by
  obtain ⟨e, he, rfl⟩ := Emission.emit_ok h
  have hbegun : Emission.AllBegun {} := fun _ hk => absurd hk (by simp [Dict.keys])
  have hd := (Emission.declares_declareAll hbegun he).declared
  rw [show Emission.named {} = [] from rfl, List.append_nil] at hd
  rwa [SourceFile.types, List.map_map]

theorem typeNames_perm_documentTypes (h : emit doc package = .ok f) :
    f.typeNames.Perm ((documentTypes doc).map (·.name)) := by
  have hnames := (types_perm_documentTypes h).map (·.name)
  rwa [List.map_map] at hnames

end ResourceModels.Go
