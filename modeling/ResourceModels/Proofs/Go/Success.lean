import ResourceModels.Proofs.Go.Uses

/-!
# Emission that succeeds or fails

Emission can only fail for a schema whose type it looks for, at a reference to no component or at a
type without a meaning. Names never stand in its way: those of components differ, and a type within
a component never takes one of them. So a result tells of the schemas that were looked for: success
that each of them leads to a type, failure that one of them does not.
-/

namespace ResourceModels.Go.Emission

/-- The schemas whose types are looked for when the type of a schema is. -/
inductive Visits : Schema → Schema → Prop
  | here (s : Schema) : Visits s s
  | within {s part n : Schema} (hp : part ∈ (form s).parts s) (h : Visits part n) : Visits s n

/-- Whether a form leads to a type, where the given components are declared. -/
def Form.Usable (names : List String) : Form → Prop
  | .reference text => ∃ target ∈ Schema.refTarget? text, target ∈ names
  | .unknown _ => False
  | _ => True

instance (names : List String) : DecidablePred (Form.Usable names) := fun f =>
  match f with
  | .reference text =>
    inferInstanceAs (Decidable (∃ target ∈ Schema.refTarget? text, target ∈ names))
  | .unknown _ => .isFalse nofun
  | .spelledOut .. | .sole _ | .any | .struct | .enumeration | .scalar _ | .array _ | .map _ =>
    .isTrue trivial

/-- Why a form leads to no type, where the given components are declared. -/
def Form.fault? (names : List String) : Form → Option EmissionFault
  | .reference text =>
    match Schema.refTarget? text with
    | none => some (.foreignReference text)
    | some target => if target ∈ names then none else some (.danglingReference text)
  | .unknown name => some (.unknownType name)
  | _ => none

theorem Form.usable_iff {names : List String} {f : Form} :
    f.Usable names ↔ f.fault? names = none := by
  cases f with
  | reference text =>
    simp only [Form.Usable, Form.fault?]
    cases Schema.refTarget? text with
    | none => simp
    | some target => by_cases h : target ∈ names <;> simp [h]
  | unknown name => simp [Form.Usable, Form.fault?]
  | _ => simp [Form.Usable, Form.fault?]

/-- Only which names there are matters, and not their order. -/
theorem Form.fault?_congr {names others : List String} (h : ∀ name, name ∈ names ↔ name ∈ others)
    (f : Form) : f.fault? names = f.fault? others := by
  cases f with
  | reference text => simp only [Form.fault?, h]
  | _ => rfl

theorem Form.fault?_ne_duplicateType (names : List String) (f : Form) (name : String) :
    f.fault? names ≠ some (.duplicateType name) := by
  cases f with
  | reference text =>
    rw [Form.fault?]
    split
    · simp
    · split <;> simp
  | _ => simp [Form.fault?]

theorem visits_iff {s n : Schema} :
    Visits s n ↔ n = s ∨ ∃ part ∈ (form s).parts s, Visits part n := by
  constructor
  · intro h
    cases h with
    | here => exact .inl rfl
    | within hp h => exact .inr ⟨_, hp, h⟩
  · rintro (rfl | ⟨part, hp, h⟩)
    · exact .here n
    · exact .within hp h

theorem mem_nodes_of_visits {s n : Schema} (h : Visits s n) : n ∈ s.nodes := by
  induction h with
  | here s => exact s.self_mem_nodes
  | within hp _ ih => exact Schema.nodes_subset_of_mem_parts (mem_parts_of_form hp) ih

/-- Each schema that is looked for leads to a type. -/
def Sound (names : List String) (s : Schema) : Prop :=
  ∀ n, Visits s n → (form n).fault? names = none

/-- One of the schemas that are looked for leads to no type. -/
def Faulty (names : List String) (s : Schema) (fault : EmissionFault) : Prop :=
  ∃ n, Visits s n ∧ (form n).fault? names = some fault

/-- What the result of a run tells of the schemas that were looked for in it. -/
def Tells {α : Type} (names : List String) (parts : List Schema) : Except EmissionFault α → Prop
  | .ok _ => ∀ part ∈ parts, Sound names part
  | .error fault => ∃ part ∈ parts, Faulty names part fault

namespace Tells

variable {α β : Type} {names : List String} {parts more : List Schema} {e : Emission}

theorem nothing (r : α) : Tells names [] (.ok r) := List.forall_mem_nil _

theorem bind {x : Step α} {f : α → Step β} (hx : Tells names parts (x.run e))
    (hf : ∀ a e₁, x.run e = .ok (a, e₁) → Tells names more ((f a).run e₁)) :
    Tells names (parts ++ more) ((x >>= f).run e) := by
  rw [StateT.run_bind]
  cases hrun : x.run e with
  | error fault =>
    rw [hrun] at hx
    obtain ⟨part, hp, hfault⟩ := hx
    exact ⟨part, List.mem_append_left _ hp, hfault⟩
  | ok r =>
    rw [hrun] at hx
    have hmore := hf r.1 r.2 hrun
    change Tells names (parts ++ more) ((f r.1).run r.2)
    cases hlater : (f r.1).run r.2 with
    | error fault =>
      rw [hlater] at hmore
      obtain ⟨part, hp, hfault⟩ := hmore
      exact ⟨part, List.mem_append_right _ hp, hfault⟩
    | ok r =>
      rw [hlater] at hmore
      exact List.forall_mem_append.mpr ⟨hx, hmore⟩

/-- What cannot fail afterwards does not change what is told. -/
theorem andThen {x : Step α} {f : α → Step β} (hx : Tells names parts (x.run e))
    (hf : ∀ a e₁, ∃ r, (f a).run e₁ = .ok r) : Tells names parts ((x >>= f).run e) := by
  rw [← List.append_nil parts]
  refine hx.bind fun a e₁ _ => ?_
  obtain ⟨r, hr⟩ := hf a e₁
  rw [hr]
  exact nothing r

theorem after {x : Step α} {f : α → Step β} {a : α} {e₁ : Emission} (hx : x.run e = .ok (a, e₁))
    (hf : Tells names parts ((f a).run e₁)) : Tells names parts ((x >>= f).run e) := by
  rw [StateT.run_bind, hx]
  exact hf

/-- A form without a fault tells of a schema what it tells of the parts it looks into. -/
theorem ofForm {s : Schema} {r : Except EmissionFault α} (hform : (form s).fault? names = none)
    (h : Tells names ((form s).parts s) r) : Tells names [s] r := by
  cases r with
  | ok _ =>
    refine List.forall_mem_singleton.mpr fun n hn => ?_
    rcases visits_iff.mp hn with rfl | ⟨part, hp, hn⟩
    · exact hform
    · exact h part hp n hn
  | error fault =>
    obtain ⟨part, hp, n, hn, hfault⟩ := h
    exact ⟨s, List.mem_cons_self, n, .within hp hn, hfault⟩

end Tells

section

variable {components : Dict String}

theorem tells_fieldsOf {properties : List (String × Schema)}
    (h : ∀ part ∈ properties.map (·.2), ∀ hint e,
      Tells (Dict.keys components) [part] ((typeOf components part hint).run e))
    (typeName : String) (required taken : List String) (e : Emission) :
    Tells (Dict.keys components) (properties.map (·.2))
      ((fieldsOf components typeName required taken properties).run e) := by
  induction properties generalizing taken e with
  | nil => exact .nothing ([], e)
  | cons property rest ih =>
    obtain ⟨name, s⟩ := property
    rw [List.map_cons] at h
    rw [fieldsOf, List.map_cons, ← List.singleton_append]
    refine (h s List.mem_cons_self _ e).bind fun type e₁ _ => ?_
    exact (ih (fun part hp => h part (List.mem_cons_of_mem _ hp)) _ e₁).andThen
      fun more e₂ => ⟨_, rfl⟩

theorem tells_partType {part : Option Schema}
    (h : ∀ s ∈ part.toList, ∀ hint e,
      Tells (Dict.keys components) [s] ((typeOf components s hint).run e))
    (hint : String) (e : Emission) :
    Tells (Dict.keys components) part.toList ((partType components part hint).run e) := by
  cases part with
  | none => exact .nothing _
  | some s => exact h s (by simp) hint e

theorem run_hoisted (s : Schema) (hint : String) (e : Emission) :
    (beginUnder components (wantedName s.keywords hint)).run e =
      .ok (hoistedName components e s hint, e.beginning (hoistedName components e s hint)) :=
  run_beginUnder.mpr ⟨rfl, rfl⟩

theorem tells_structType {s : Schema}
    (h : ∀ part ∈ s.properties.map (·.2), ∀ hint e,
      Tells (Dict.keys components) [part] ((typeOf components part hint).run e))
    (hint : String) (e : Emission) :
    Tells (Dict.keys components) (s.properties.map (·.2))
      ((structType components s hint).run e) :=
  .after (run_hoisted s hint e)
    ((tells_fieldsOf h _ s.keywords.required [] _).andThen fun _ _ => ⟨_, rfl⟩)

theorem tells_enumerationType (s : Schema) (hint : String) (e : Emission) :
    Tells (Dict.keys components) [] ((enumerationType components s hint).run e) :=
  .after (run_hoisted s hint e) (.nothing _)

theorem run_typeOfForm_of_fault? {f : Form} {fault : EmissionFault}
    (h : f.fault? (Dict.keys components) = some fault) (s : Schema) (hint : String) (e : Emission) :
    (typeOfForm components s hint f).run e = .error fault := by
  cases f with
  | reference text =>
    rw [Form.fault?] at h
    rw [typeOfForm, resolve]
    cases ht : Schema.refTarget? text with
    | none =>
      rw [ht] at h
      cases h
      rfl
    | some target =>
      rw [ht] at h
      by_cases hthere : target ∈ Dict.keys components
      · cases (if_pos hthere).symm.trans h
      · cases (if_neg hthere).symm.trans h
        dsimp only
        rw [Dict.get?_eq_none_iff.mpr hthere]
        rfl
  | unknown name =>
    cases h
    rfl
  | _ => cases h

/-- A form without a fault tells of the parts that it looks into. -/
theorem tells_typeOfForm {s : Schema} {f : Form} (hf : f.fault? (Dict.keys components) = none)
    (h : ∀ part ∈ f.parts s, ∀ hint e,
      Tells (Dict.keys components) [part] ((typeOf components part hint).run e))
    (hint : String) (e : Emission) :
    Tells (Dict.keys components) (f.parts s) ((typeOfForm components s hint f).run e) := by
  cases f with
  | spelledOut text source => rcases source with _ | ⟨path, name⟩ <;> exact .nothing _
  | reference text =>
    obtain ⟨target, ht, hthere⟩ := Form.usable_iff.mpr hf
    obtain ⟨name, hname⟩ := Option.isSome_iff_exists.mp (Dict.isSome_get?_iff.mpr hthere)
    have hrun :
        (typeOfForm components s hint (.reference text)).run e = .ok (.declared name, e) := by
      rw [typeOfForm, resolve, Option.mem_def.mp ht]
      simp only [hname]
      rfl
    rw [hrun]
    exact .nothing _
  | sole member => exact h member List.mem_cons_self hint e
  | any => exact .nothing _
  | struct => exact tells_structType h hint e
  | enumeration => exact tells_enumerationType s hint e
  | scalar type =>
    rw [typeOfForm]
    split <;> exact .nothing _
  | array items => exact (tells_partType h hint e).andThen fun _ _ => ⟨_, rfl⟩
  | map values => exact (tells_partType h (hint ++ "Value") e).andThen fun _ _ => ⟨_, rfl⟩
  | unknown name => cases hf

/-- Finding the type of a schema tells of the schemas that it visits. -/
theorem tells_typeOf (s : Schema) (hint : String) (e : Emission) :
    Tells (Dict.keys components) [s] ((typeOf components s hint).run e) := by
  induction s using form_induction generalizing hint e with
  | step s ih =>
    rw [typeOf_eq]
    cases hfault : (form s).fault? (Dict.keys components) with
    | none => exact .ofForm hfault (tells_typeOfForm hfault ih hint e)
    | some fault =>
      rw [run_typeOfForm_of_fault? hfault]
      exact ⟨s, List.mem_cons_self, s, .here s, hfault⟩

theorem tells_componentBody (name : String) (s : Schema) (e : Emission) :
    Tells (Dict.keys components) (componentParts s) ((componentBody components name s).run e) := by
  rw [componentBody, componentParts]
  split
  · exact (tells_fieldsOf (fun part _ => tells_typeOf part) name s.keywords.required [] e).andThen
      fun _ _ => ⟨_, rfl⟩
  · split
    · exact .nothing _
    · exact (tells_typeOf s (name ++ "Value") e).andThen fun _ _ => ⟨_, rfl⟩

theorem tells_declareComponent {name : String} {e : Emission} (hfree : name ∉ e.begun)
    (component : String) (s : Schema) : Tells (Dict.keys components) (componentParts s)
      ((declareComponent components component name s).run e) := by
  have hbegin : («begin» name).run e = .ok ((), e.beginning name) := run_begin.mpr ⟨hfree, rfl⟩
  exact .after hbegin ((tells_componentBody name s _).andThen fun _ _ => ⟨_, rfl⟩)

/-- No type within a component has the name of a component. -/
theorem namesHold_notMem (components : Dict String) :
    NamesHold components (fun _ => True) (fun _ => True) (· ∉ Dict.values components) where
  field _ _ _ _ := trivial
  value _ _ := trivial
  name _ _ _ _ _ h := unique_not_mem _ _ (List.mem_append_right _ h)

/-- A component takes its own name, and none of another component. -/
theorem free_of_run_declareComponent {component name other : String} {s : Schema} {u : Unit}
    {e e' : Emission} (he : e.AllBegun)
    (h : (declareComponent components component name s).run e = .ok (u, e'))
    (hother : other ∈ Dict.values components) (hne : other ≠ name) (hfree : other ∉ e.begun) :
    other ∉ e'.begun := by
  rw [(declares_declareComponent he h).begun, List.mem_append, not_or]
  refine ⟨fun hmem => ?_, hfree⟩
  obtain ⟨t, ht, rfl⟩ := List.mem_map.mp hmem
  have htypes := (namesHold_notMem components).componentTypes (s := s) (fun _ _ => trivial)
    trivial e.begun t ht
  rcases htypes with heq | hnot
  · exact hne heq
  · exact hnot hother

/-- All schemas that are looked for in a component lead to a type. -/
def SoundComponent (names : List String) (s : Schema) : Prop :=
  ∀ part ∈ componentParts s, Sound names part

/-- The first component with a schema that leads to no type, and the fault of one of those. -/
def FailsAt (names : List String) (schemas : List (String × Schema))
    (failure : String × EmissionFault) : Prop :=
  ∃ before s after, schemas = before ++ (failure.1, s) :: after ∧
    (∀ c ∈ before, SoundComponent names c.2) ∧
      ∃ part ∈ componentParts s, Faulty names part failure.2

theorem FailsAt.cons {names : List String} {schemas : List (String × Schema)}
    {failure : String × EmissionFault} {c : String × Schema} (hc : SoundComponent names c.2)
    (h : FailsAt names schemas failure) : FailsAt names (c :: schemas) failure := by
  obtain ⟨before, s, after, rfl, hbefore, hfault⟩ := h
  exact ⟨c :: before, s, after, rfl, List.forall_mem_cons.mpr ⟨hc, hbefore⟩, hfault⟩

/-- Declaring all components tells of all of them, or of those up to the one it fails at. -/
theorem declareAll_tells {schemas : List (String × Schema)} {e : Emission} (he : e.AllBegun)
    (hvalues : ∀ c ∈ schemas, declaredName components c.1 ∈ Dict.values components)
    (hnodup : (schemas.map fun c => declaredName components c.1).Nodup)
    (hfree : ∀ c ∈ schemas, declaredName components c.1 ∉ e.begun) :
    (∃ e', declareAll components e schemas = .ok e' ∧
      ∀ c ∈ schemas, SoundComponent (Dict.keys components) c.2) ∨
    ∃ failure, declareAll components e schemas = .error failure ∧
      FailsAt (Dict.keys components) schemas failure := by
  induction schemas generalizing e with
  | nil => exact .inl ⟨e, rfl, List.forall_mem_nil _⟩
  | cons c rest ih =>
    obtain ⟨component, s⟩ := c
    obtain ⟨hfirst, hrest⟩ := List.nodup_cons.mp hnodup
    have htells : Tells (Dict.keys components) (componentParts s) _ :=
      tells_declareComponent (hfree (component, s) List.mem_cons_self) component s
    rw [declareAll]
    cases hrun : (declareComponent components component (declaredName components component) s).run e
    with
    | error fault =>
      rw [hrun] at htells
      rw [declaredName] at hrun
      rw [hrun]
      exact .inr ⟨(component, fault), rfl, [], s, rest, rfl, List.forall_mem_nil _, htells⟩
    | ok r =>
      rw [hrun] at htells
      have hmore := ih (e := r.2) ((kept_declaresBegun.declareComponent hrun).within he)
        (fun d hd => hvalues d (List.mem_cons_of_mem _ hd)) hrest fun d hd =>
          free_of_run_declareComponent he hrun (hvalues d (List.mem_cons_of_mem _ hd))
            (fun heq => hfirst (List.mem_map.mpr ⟨d, hd, heq⟩))
            (hfree d (List.mem_cons_of_mem _ hd))
      rw [declaredName] at hrun
      rw [hrun]
      rcases hmore with ⟨e', he', hsound⟩ | ⟨failure, hfailure, hfails⟩
      · exact .inl ⟨e', he', List.forall_mem_cons.mpr ⟨htells, hsound⟩⟩
      · exact .inr ⟨failure, hfailure, hfails.cons htells⟩

end

end ResourceModels.Go.Emission

namespace ResourceModels.Go

open Emission (SoundComponent FailsAt)

section

variable {doc : OpenApi}

/-- The components of a document have names of their own, under which they are declared. -/
theorem declaredNames_nodup (hkeys : (Dict.keys doc.schemas).Nodup) :
    let components := Emission.componentNames [] doc.schemas
    (∀ c ∈ doc.schemas, Emission.declaredName components c.1 ∈ Dict.values components) ∧
      (doc.schemas.map fun c => Emission.declaredName components c.1).Nodup := by
  intro components
  have hname : ∀ c ∈ doc.schemas,
      components.get? c.1 = some (Emission.declaredName components c.1) := by
    intro c hc
    obtain ⟨name, hget⟩ := Emission.exists_get?_componentNames (List.mem_map_of_mem hc)
    rw [Emission.declaredName, hget, Option.getD_some]
  refine ⟨fun c hc => List.mem_map_of_mem (Dict.mem_of_get? (hname c hc)), ?_⟩
  have hnodup : ((Dict.keys doc.schemas).map (Emission.declaredName components)).Nodup := by
    refine hkeys.map_on ?_
    intro component hcomponent other hother heq
    obtain ⟨c, hc, rfl⟩ := List.mem_map.mp hcomponent
    obtain ⟨d, hd, rfl⟩ := List.mem_map.mp hother
    exact Emission.get?_componentNames_inj hkeys (hname c hc) (heq ▸ hname d hd)
  rwa [Dict.keys, List.map_map] at hnodup

/-- A document is written if each schema that its types are found by leads to a type, and else the
first component fails where one does not. -/
theorem emit_tells (hkeys : (Dict.keys doc.schemas).Nodup) (package : String) :
    (∃ f, emit doc package = .ok f ∧
      ∀ c ∈ doc.schemas, SoundComponent (Dict.keys doc.schemas) c.2) ∨
    ∃ failure, emit doc package = .error failure ∧
      FailsAt (Dict.keys doc.schemas) doc.schemas failure := by
  have hfault : Emission.Form.fault? (Dict.keys (Emission.componentNames [] doc.schemas)) =
      Emission.Form.fault? (Dict.keys doc.schemas) := by
    refine funext (Emission.Form.fault?_congr fun name => ?_)
    rw [Emission.mem_keys_componentNames]
    exact or_iff_right List.not_mem_nil
  have hbegun : Emission.AllBegun {} := fun _ hk => absurd hk (by simp [Dict.keys])
  obtain ⟨hvalues, hnodup⟩ := declaredNames_nodup hkeys
  have htells := Emission.declareAll_tells hbegun hvalues hnodup (by simp)
  simp only [SoundComponent, Emission.Sound, FailsAt, Emission.Faulty, hfault] at htells ⊢
  rw [emit]
  rcases htells with ⟨e, he, hsound⟩ | ⟨failure, hfailure, hfails⟩
  · rw [he]
    exact .inl ⟨_, rfl, hsound⟩
  · rw [hfailure]
    exact .inr ⟨failure, rfl, hfails⟩

end

/-- All schemas that may be looked for lead to a type. -/
def Emittable (doc : OpenApi) : Prop :=
  (Dict.keys doc.schemas).Nodup ∧ ∀ c ∈ doc.schemas, ∀ part ∈ Emission.componentParts c.2,
    ∀ n ∈ part.nodes, (Emission.form n).Usable (Dict.keys doc.schemas)

instance : DecidablePred Emittable := fun doc =>
  inferInstanceAs (Decidable ((Dict.keys doc.schemas).Nodup ∧ ∀ c ∈ doc.schemas,
    ∀ part ∈ Emission.componentParts c.2, ∀ n ∈ part.nodes,
      (Emission.form n).Usable (Dict.keys doc.schemas)))

theorem Emittable.exists_emit {doc : OpenApi} (h : Emittable doc) (package : String) :
    ∃ f, emit doc package = .ok f := by
  rcases emit_tells h.1 package with
    ⟨f, hf, -⟩ | ⟨failure, -, before, s, after, hschemas, -, part, hp, n, hn, hfault⟩
  · exact ⟨f, hf⟩
  · have hc : (failure.1, s) ∈ doc.schemas := by simp [hschemas]
    have husable := h.2 _ hc part hp n (Emission.mem_nodes_of_visits hn)
    rw [Emission.Form.usable_iff.mp husable] at hfault
    cases hfault

end ResourceModels.Go
