import Mathlib.Data.List.Nodup
import ResourceModels.Proofs.Dict
import ResourceModels.Proofs.Go.Runs

/-!
# What emission declares

A relation that holds of the import of a package and of the declaration of a type holds of every
run. Two such relations say that the declarations stay in order under their own names, with fields
that are named after properties and constants that are named after texts and differ, and that the
types that a run begins are the types that it declares.
-/

namespace ResourceModels.Go

def TypeBody.constantNames : TypeBody → List String
  | .enumeration constants => constants.map (·.name)
  | _ => []

def TypeBody.fieldNames : TypeBody → List String
  | .struct fields => fields.map (·.name)
  | _ => []

namespace Emission

def constantName (typeName : String) (taken : List String) (value : String) : String :=
  unique taken (typeName ++ if value = "" then "Empty" else exported value)

end Emission

structure Declaration.WellFormed (d : Declaration) : Prop where
  distinct : d.body.constantNames.Nodup
  constants : ∀ name ∈ d.body.constantNames,
    ∃ taken value, name = Emission.constantName d.name taken value
  fields : ∀ name ∈ d.body.fieldNames, ∃ taken property, name = Emission.fieldName taken property

namespace Emission

/-- The names of constants are given in turn. -/
theorem constants_eq_namesInTurn (typeName : String) (taken values : List String) :
    (constants typeName taken values).map (·.name) = namesInTurn taken
      (values.map fun value => typeName ++ if value = "" then "Empty" else exported value) := by
  induction values generalizing taken with
  | nil => rfl
  | cons value rest ih => exact congrArg _ (ih _)

theorem enumeration_constantNames_nodup (typeName : String) (k : Keywords) :
    (enumeration typeName k).constantNames.Nodup := by
  rw [enumeration, TypeBody.constantNames, constants_eq_namesInTurn]
  exact namesInTurn_nodup _ _

theorem exists_value_of_constants {typeName : String} {taken values : List String} :
    ∀ c ∈ constants typeName taken values,
      ∃ taken value, c.name = constantName typeName taken value := by
  induction values generalizing taken with
  | nil => nofun
  | cons value rest ih => exact List.forall_mem_cons.mpr ⟨⟨taken, value, rfl⟩, ih⟩

theorem wellFormed_enumeration (name comment : String) (k : Keywords) :
    Declaration.WellFormed ⟨name, comment, enumeration name k⟩ := by
  refine ⟨enumeration_constantNames_nodup name k, fun constant hm => ?_, nofun⟩
  obtain ⟨c, hc, rfl⟩ := List.mem_map.mp hm
  exact exists_value_of_constants c hc

theorem wellFormed_alias (name comment : String) (t : TypeExpr) :
    Declaration.WellFormed ⟨name, comment, .alias t⟩ :=
  ⟨List.nodup_nil, nofun, nofun⟩

theorem exists_property_of_fieldsOf {components : Dict String} {typeName : String}
    {required taken : List String} {properties : List (String × Schema)} {fields : List Field}
    {e e' : Emission}
    (h : (fieldsOf components typeName required taken properties).run e = .ok (fields, e')) :
    ∀ f ∈ fields, ∃ taken property, f.name = fieldName taken property := by
  induction properties generalizing taken fields e with
  | nil =>
    obtain ⟨rfl, _⟩ := run_fieldsOf_nil.mp h
    nofun
  | cons property rest ih =>
    obtain ⟨type, e₁, more, _, hrest, rfl⟩ := run_fieldsOf_cons.mp h
    exact List.forall_mem_cons.mpr ⟨⟨taken, property.1, rfl⟩, ih hrest⟩

theorem wellFormed_struct {components : Dict String} {typeName : String}
    {required taken : List String} {properties : List (String × Schema)} {fields : List Field}
    {e e' : Emission}
    (h : (fieldsOf components typeName required taken properties).run e = .ok (fields, e'))
    (name comment : String) : Declaration.WellFormed ⟨name, comment, .struct fields⟩ := by
  refine ⟨List.nodup_nil, nofun, fun field hname => ?_⟩
  obtain ⟨f, hf, rfl⟩ := List.mem_map.mp hname
  exact exists_property_of_fieldsOf h f hf

/-- A relation between emissions that every step keeps. -/
structure Kept (R : Emission → Emission → Prop) : Prop where
  refl : ∀ e, R e e
  trans : ∀ {e₁ e₂ e₃}, R e₁ e₂ → R e₂ e₃ → R e₁ e₃
  imported : ∀ e source, R e (e.imported source)
  declared : ∀ {e e₁ : Emission} {d : Declaration}, d.name ∉ e.begun →
    d.WellFormed → R (e.beginning d.name) e₁ → R e (e₁.declaring d)

variable {R : Emission → Emission → Prop} {components : Dict String}

theorem Kept.fieldsOf_of_parts (hR : Kept R) {typeName : String} {required taken : List String}
    {properties : List (String × Schema)}
    (hparts : ∀ part ∈ properties.map (·.2), ∀ hint t e e',
      (typeOf components part hint).run e = .ok (t, e') → R e e')
    {fields : List Field} {e e' : Emission}
    (h : (fieldsOf components typeName required taken properties).run e = .ok (fields, e')) :
    R e e' := by
  induction properties generalizing taken fields e with
  | nil =>
    obtain ⟨_, rfl⟩ := run_fieldsOf_nil.mp h
    exact hR.refl e'
  | cons property rest ih =>
    obtain ⟨type, e₁, more, ht, hrest, _⟩ := run_fieldsOf_cons.mp h
    have hfirst := hparts property.2 List.mem_cons_self _ _ _ _ ht
    exact hR.trans hfirst (ih (fun part hp => hparts part (List.mem_cons_of_mem _ hp)) hrest)

theorem hoistedName_not_mem_begun (e : Emission) (s : Schema) (hint : String) :
    hoistedName components e s hint ∉ e.begun := fun h =>
  unique_not_mem _ _ (List.mem_append_left _ h)

theorem Kept.partType_of_parts (hR : Kept R) {part : Option Schema}
    (hparts : ∀ s ∈ part.toList, ∀ hint t e e',
      (typeOf components s hint).run e = .ok (t, e') → R e e')
    {hint : String} {t : TypeExpr} {e e' : Emission}
    (h : (partType components part hint).run e = .ok (t, e')) : R e e' := by
  cases part with
  | none =>
    obtain ⟨_, rfl⟩ := run_pure.mp h
    exact hR.refl e'
  | some s => exact hparts s (by simp) hint t e e' h

theorem Kept.typeOf (hR : Kept R) {s : Schema} {hint : String} {t : TypeExpr} {e e' : Emission}
    (h : (Emission.typeOf components s hint).run e = .ok (t, e')) : R e e' := by
  induction s using form_induction generalizing hint t e e' with
  | step s ih =>
    cases typeRun_of_run h with
    | spelledOut hf => exact hR.imported e _
    | reference hf ht hn => exact hR.refl e
    | sole hf hm => exact ih _ (by simp [hf, Form.parts]) hm
    | any hf => exact hR.refl e
    | struct hf hn hr =>
      refine hR.declared (hn ▸ hoistedName_not_mem_begun e s hint) (wellFormed_struct hr _ _) ?_
      refine hR.fieldsOf_of_parts (fun part hp hint t e e' h => ih part ?_ h) hr
      simpa [hf, Form.parts] using hp
    | enumeration hf hn =>
      exact hR.declared (hn ▸ hoistedName_not_mem_begun e s hint)
        (wellFormed_enumeration _ _ _) (hR.refl _)
    | scalar hf =>
      split
      · exact hR.imported e _
      · exact hR.refl e
    | array hf hi =>
      refine hR.partType_of_parts (fun part hp hint t e e' h => ih part ?_ h) hi
      simpa [hf, Form.parts] using hp
    | map hf hv =>
      refine hR.partType_of_parts (fun part hp hint t e e' h => ih part ?_ h) hv
      simpa [hf, Form.parts] using hp

theorem Kept.fieldsOf (hR : Kept R) {typeName : String} {required taken : List String}
    {properties : List (String × Schema)} {fields : List Field} {e e' : Emission}
    (h : (Emission.fieldsOf components typeName required taken properties).run e
      = .ok (fields, e')) : R e e' :=
  hR.fieldsOf_of_parts (fun _ _ _ _ _ _ ht => hR.typeOf ht) h

theorem Kept.declareComponent (hR : Kept R) {component name : String} {s : Schema} {u : Unit}
    {e e' : Emission}
    (h : (Emission.declareComponent components component name s).run e = .ok (u, e')) :
    R e e' := by
  obtain ⟨hfree, body, e₁, hbody, rfl⟩ := run_declareComponent h
  cases hbody with
  | struct hs hr => exact hR.declared hfree (wellFormed_struct hr _ _) (hR.fieldsOf hr)
  | enumeration hs he =>
    exact hR.declared hfree (wellFormed_enumeration name _ _) (hR.refl _)
  | synonym hs he ht => exact hR.declared hfree (wellFormed_alias _ _ _) (hR.typeOf ht)

theorem Kept.declareAll (hR : Kept R) {schemas : List (String × Schema)} {e e' : Emission}
    (h : Emission.declareAll components e schemas = .ok e') : R e e' := by
  induction schemas generalizing e with
  | nil => cases h; exact hR.refl _
  | cons c rest ih =>
    obtain ⟨e₁, hc, hrest⟩ := declareAll_cons_ok h
    exact hR.trans (hR.declareComponent hc) (ih hrest)

/-- The declarations are in order of name, and each is well formed. -/
structure WellDeclared (e : Emission) : Prop where
  sorted : Dict.Sorted e.declarations
  named : ∀ p ∈ e.declarations, p.2.name = p.1
  wellFormed : ∀ p ∈ e.declarations, p.2.WellFormed

theorem WellDeclared.declaring {e : Emission} (h : e.WellDeclared) {d : Declaration}
    (hd : d.WellFormed) : (e.declaring d).WellDeclared where
  sorted := h.sorted.insert d.name d
  named p hp := by
    rcases Dict.mem_insert hp with rfl | hp
    · rfl
    · exact h.named p hp
  wellFormed p hp := by
    rcases Dict.mem_insert hp with rfl | hp
    · exact hd
    · exact h.wellFormed p hp

theorem kept_wellDeclared : Kept fun e e' => e.WellDeclared → e'.WellDeclared where
  refl _ h := h
  trans h₁ h₂ h := h₂ (h₁ h)
  imported e source h := by
    rcases source with _ | ⟨path, name⟩
    · exact h
    · exact ⟨h.sorted, h.named, h.wellFormed⟩
  declared _ hd hR h := (hR ⟨h.sorted, h.named, h.wellFormed⟩).declaring hd

theorem wellDeclared_of_declareAll {schemas : List (String × Schema)} {e : Emission}
    (h : declareAll components {} schemas = .ok e) : e.WellDeclared := by
  refine kept_wellDeclared.declareAll h ⟨.nil, ?_, ?_⟩
  · intro p hp
    cases hp
  · intro p hp
    cases hp

end Emission

end ResourceModels.Go
