import ResourceModels.Proofs.Go.Forms
import ResourceModels.Proofs.Go.Numbering

/-!
# Successful runs of emission

What one schema does to an emission when its type is found, and what the fields of a struct do. The
name that a type is begun under is always free, so beginning it never fails.
-/

namespace ResourceModels.Go.Emission

theorem run_pure {α : Type} {a b : α} {e e' : Emission} :
    (pure a : Step α).run e = .ok (b, e') ↔ b = a ∧ e' = e := by
  constructor
  · intro h; cases h; exact ⟨rfl, rfl⟩
  · rintro ⟨rfl, rfl⟩; rfl

theorem run_throw {α : Type} {fault : EmissionFault} {b : α} {e e' : Emission} :
    ¬(throw fault : Step α).run e = .ok (b, e') := nofun

theorem run_bind {α β : Type} {x : Step α} {f : α → Step β} {b : β} {e e' : Emission} :
    (x >>= f).run e = .ok (b, e') ↔
      ∃ a e₁, x.run e = .ok (a, e₁) ∧ (f a).run e₁ = .ok (b, e') := by
  rw [StateT.run_bind]
  cases h : x.run e with
  | error fault => simp [bind, Except.bind]
  | ok result =>
    obtain ⟨a, e₁⟩ := result
    simp [bind, Except.bind]

def imported (e : Emission) : Option (String × Option String) → Emission
  | none => e
  | some (path, name) => { e with imports := e.imports.insert path name }

def beginning (e : Emission) (name : String) : Emission := { e with begun := name :: e.begun }

def declaring (e : Emission) (d : Declaration) : Emission :=
  { e with declarations := e.declarations.insert d.name d }

/-- The name that the type of a schema within a component is declared under. -/
def hoistedName (components : Dict String) (e : Emission) (s : Schema) (hint : String) : String :=
  unique (e.begun ++ Dict.values components) (wantedName s.keywords hint)

theorem run_importSource {source : Option (String × Option String)} {u : Unit} {e e' : Emission} :
    (importSource source).run e = .ok (u, e') ↔ e' = e.imported source := by
  rcases source with _ | ⟨path, name⟩
  all_goals
    constructor
    · intro h; cases h; rfl
    · intro h; cases h; rfl

theorem run_declare {d : Declaration} {u : Unit} {e e' : Emission} :
    (declare d).run e = .ok (u, e') ↔ e' = e.declaring d := by
  constructor
  · intro h; cases h; rfl
  · intro h; cases h; rfl

theorem run_begin_eq (name : String) (e : Emission) :
    («begin» name).run e =
      if name ∈ e.begun then .error (.duplicateType name) else .ok ((), e.beginning name) := by
  by_cases h : name ∈ e.begun
  · rw [if_pos h]
    simp only [«begin», StateT.run_bind, StateT.run_get, pure_bind, h, if_true]
    rfl
  · rw [if_neg h]
    simp only [«begin», StateT.run_bind, StateT.run_get, pure_bind, h, if_false]
    rfl

theorem run_begin {name : String} {u : Unit} {e e' : Emission} :
    («begin» name).run e = .ok (u, e') ↔ name ∉ e.begun ∧ e' = e.beginning name := by
  rw [run_begin_eq]
  by_cases h : name ∈ e.begun
  · simp [h]
  · simp [h, eq_comm]

/-- A type within a component always finds a name. -/
theorem run_beginUnder {components : Dict String} {base name : String} {e e' : Emission} :
    (beginUnder components base).run e = .ok (name, e') ↔
      name = unique (e.begun ++ Dict.values components) base ∧ e' = e.beginning name := by
  have hfree : unique (e.begun ++ Dict.values components) base ∉ e.begun := fun h =>
    unique_not_mem _ _ (List.mem_append_left _ h)
  constructor
  · intro h
    obtain ⟨e₁, e₂, hget, h⟩ := run_bind.mp h
    cases hget
    obtain ⟨u, e₃, hbegin, h⟩ := run_bind.mp h
    obtain ⟨rfl, rfl⟩ := run_pure.mp h
    exact ⟨rfl, (run_begin.mp hbegin).2⟩
  · rintro ⟨rfl, rfl⟩
    exact run_bind.mpr ⟨e, e, rfl, run_bind.mpr ⟨(), _, run_begin.mpr ⟨hfree, rfl⟩, rfl⟩⟩

/-- What finding the type of a schema gives and leaves behind, by the form of the schema. -/
inductive TypeRun (components : Dict String) (s : Schema) (hint : String) (e : Emission) :
    TypeExpr → Emission → Prop
  | spelledOut {text : String} {source : Option (String × Option String)}
      (hf : form s = .spelledOut text source) :
      TypeRun components s hint e (.written text) (e.imported source)
  | reference {reference target name : String} (hf : form s = .reference reference)
      (ht : Schema.refTarget? reference = some target) (hn : components.get? target = some name) :
      TypeRun components s hint e (.declared name) e
  | sole {member : Schema} {t : TypeExpr} {e' : Emission} (hf : form s = .sole member)
      (hm : (typeOf components member hint).run e = .ok (t, e')) :
      TypeRun components s hint e t e'
  | any (hf : form s = .any) : TypeRun components s hint e .any e
  | struct {name : String} {fields : List Field} {e₁ : Emission} (hf : form s = .struct)
      (hn : name = hoistedName components e s hint)
      (hr : (fieldsOf components name s.keywords.required [] s.properties).run (e.beginning name)
        = .ok (fields, e₁)) :
      TypeRun components s hint e (.declared name)
        (e₁.declaring ⟨name, s.keywords.description.getD "", .struct fields⟩)
  | enumeration {name : String} (hf : form s = .enumeration)
      (hn : name = hoistedName components e s hint) :
      TypeRun components s hint e (.declared name) ((e.beginning name).declaring
        ⟨name, s.keywords.description.getD "", enumeration name s.keywords⟩)
  | scalar {type : TypeExpr} (hf : form s = .scalar type) :
      TypeRun components s hint e type
        (if type = .time then e.imported (some ("time", none)) else e)
  | array {items : Option Schema} {t : TypeExpr} {e' : Emission} (hf : form s = .array items)
      (hi : (partType components items hint).run e = .ok (t, e')) :
      TypeRun components s hint e (.slice t) e'
  | map {values : Option Schema} {t : TypeExpr} {e' : Emission} (hf : form s = .map values)
      (hv : (partType components values (hint ++ "Value")).run e = .ok (t, e')) :
      TypeRun components s hint e (.map t) e'

theorem run_structType {components : Dict String} {s : Schema} {hint : String} {t : TypeExpr}
    {e e' : Emission} (hf : form s = .struct)
    (h : (structType components s hint).run e = .ok (t, e')) :
    TypeRun components s hint e t e' := by
  obtain ⟨name, e₁, hname, h⟩ := run_bind.mp h
  obtain ⟨fields, e₂, hfields, h⟩ := run_bind.mp h
  obtain ⟨u, e₃, hd, h⟩ := run_bind.mp h
  obtain ⟨rfl, rfl⟩ := run_pure.mp h
  obtain ⟨hn, rfl⟩ := run_beginUnder.mp hname
  rw [run_declare.mp hd]
  exact .struct hf hn hfields

theorem run_enumerationType {components : Dict String} {s : Schema} {hint : String} {t : TypeExpr}
    {e e' : Emission} (hf : form s = .enumeration)
    (h : (enumerationType components s hint).run e = .ok (t, e')) :
    TypeRun components s hint e t e' := by
  obtain ⟨name, e₁, hname, h⟩ := run_bind.mp h
  obtain ⟨u, e₂, hd, h⟩ := run_bind.mp h
  obtain ⟨rfl, rfl⟩ := run_pure.mp h
  obtain ⟨hn, rfl⟩ := run_beginUnder.mp hname
  rw [run_declare.mp hd]
  exact .enumeration hf hn

theorem run_resolve {components : Dict String} {reference : String} {t : TypeExpr}
    {e e' : Emission} (h : (resolve components reference).run e = .ok (t, e')) :
    ∃ target name, Schema.refTarget? reference = some target ∧
      components.get? target = some name ∧ t = .declared name ∧ e' = e := by
  unfold resolve at h
  split at h
  · exact absurd h run_throw
  · next target ht =>
    split at h
    · exact absurd h run_throw
    · next name hn =>
      obtain ⟨rfl, rfl⟩ := run_pure.mp h
      exact ⟨target, name, ht, hn, rfl, rfl⟩

theorem run_scalar {type t : TypeExpr} {e e' : Emission}
    (h : (do if type = .time then addImport "time" none
             return type : Step TypeExpr).run e = .ok (t, e')) :
    t = type ∧ e' = if type = .time then e.imported (some ("time", none)) else e := by
  split at h
  · next ht =>
    obtain ⟨u, e₁, hi, h⟩ := run_bind.mp h
    obtain ⟨rfl, rfl⟩ := run_pure.mp h
    rw [if_pos ht]
    cases hi
    exact ⟨rfl, rfl⟩
  · next ht =>
    obtain ⟨rfl, rfl⟩ := run_pure.mp h
    rw [if_neg ht]
    exact ⟨rfl, rfl⟩

theorem typeRun_of_run {components : Dict String} {s : Schema} {hint : String} {t : TypeExpr}
    {e e' : Emission} (h : (typeOf components s hint).run e = .ok (t, e')) :
    TypeRun components s hint e t e' := by
  rw [typeOf_eq] at h
  cases hf : form s with
  | spelledOut text source =>
    rw [hf] at h
    obtain ⟨u, e₁, hi, h⟩ := run_bind.mp h
    obtain ⟨rfl, rfl⟩ := run_pure.mp h
    rw [run_importSource.mp hi]
    exact .spelledOut hf
  | reference reference =>
    rw [hf] at h
    obtain ⟨target, name, ht, hn, rfl, rfl⟩ := run_resolve h
    exact .reference hf ht hn
  | sole member => rw [hf] at h; exact .sole hf h
  | any =>
    rw [hf] at h
    obtain ⟨rfl, rfl⟩ := run_pure.mp h
    exact .any hf
  | struct => rw [hf] at h; exact run_structType hf h
  | enumeration => rw [hf] at h; exact run_enumerationType hf h
  | scalar type =>
    rw [hf] at h
    obtain ⟨rfl, rfl⟩ := run_scalar h
    exact .scalar hf
  | array items =>
    rw [hf] at h
    obtain ⟨t', e₁, hi, h⟩ := run_bind.mp h
    obtain ⟨rfl, rfl⟩ := run_pure.mp h
    exact .array hf hi
  | map values =>
    rw [hf] at h
    obtain ⟨t', e₁, hv, h⟩ := run_bind.mp h
    obtain ⟨rfl, rfl⟩ := run_pure.mp h
    exact .map hf hv
  | unknown name => rw [hf] at h; exact absurd h run_throw

def fieldFor (required : List String) (name property : String) (s : Schema) (type : TypeExpr) :
    Field :=
  { name, property, omitEmpty := !decide (property ∈ required)
    type := if decide (property ∈ required) then type else type.optional
    comment := s.keywords.description.getD "" }

def fieldHint (typeName : String) (taken : List String) (property : String) : String :=
  shortName (typeName ++ fieldName taken property)

theorem run_fieldsOf_nil {components : Dict String} {typeName : String}
    {required taken : List String} {fields : List Field} {e e' : Emission} :
    (fieldsOf components typeName required taken []).run e = .ok (fields, e') ↔
      fields = [] ∧ e' = e := by
  rw [fieldsOf]
  exact run_pure

theorem run_fieldsOf_cons {components : Dict String} {typeName property : String}
    {required taken : List String} {s : Schema} {rest : List (String × Schema)}
    {fields : List Field} {e e' : Emission} :
    (fieldsOf components typeName required taken ((property, s) :: rest)).run e
        = .ok (fields, e') ↔
      ∃ type e₁ more,
        (typeOf components s (fieldHint typeName taken property)).run e = .ok (type, e₁) ∧
        (fieldsOf components typeName required (fieldName taken property :: taken) rest).run e₁
          = .ok (more, e') ∧
        fields = fieldFor required (fieldName taken property) property s type :: more := by
  rw [fieldsOf, run_bind]
  constructor
  · rintro ⟨type, e₁, ht, h⟩
    obtain ⟨more, e₂, hr, h⟩ := run_bind.mp h
    obtain ⟨rfl, rfl⟩ := run_pure.mp h
    exact ⟨type, e₁, more, ht, hr, rfl⟩
  · rintro ⟨type, e₁, more, ht, hr, rfl⟩
    exact ⟨type, e₁, ht, run_bind.mpr ⟨more, e', hr, rfl⟩⟩

/-- What finding the body of a component gives and leaves behind. -/
inductive BodyRun (components : Dict String) (name : String) (s : Schema) (e : Emission) :
    TypeBody → Emission → Prop
  | struct {fields : List Field} {e' : Emission} (hs : isStruct s = true)
      (hr : (fieldsOf components name s.keywords.required [] s.properties).run e
        = .ok (fields, e')) :
      BodyRun components name s e (.struct fields) e'
  | enumeration (hs : isStruct s = false) (he : isEnumeration s.keywords = true) :
      BodyRun components name s e (enumeration name s.keywords) e
  | synonym {t : TypeExpr} {e' : Emission} (hs : isStruct s = false)
      (he : isEnumeration s.keywords = false)
      (ht : (typeOf components s (name ++ "Value")).run e = .ok (t, e')) :
      BodyRun components name s e (.alias t) e'

theorem bodyRun_of_run {components : Dict String} {name : String} {s : Schema} {body : TypeBody}
    {e e' : Emission} (h : (componentBody components name s).run e = .ok (body, e')) :
    BodyRun components name s e body e' := by
  unfold componentBody at h
  split at h
  · next hs =>
    obtain ⟨fields, e₁, hr, h⟩ := run_bind.mp h
    obtain ⟨rfl, rfl⟩ := run_pure.mp h
    exact .struct hs hr
  · next hs =>
    split at h
    · next he =>
      obtain ⟨rfl, rfl⟩ := run_pure.mp h
      exact .enumeration (by simpa using hs) he
    · next he =>
      obtain ⟨t, e₁, ht, h⟩ := run_bind.mp h
      obtain ⟨rfl, rfl⟩ := run_pure.mp h
      exact .synonym (by simpa using hs) (by simpa using he) ht

def componentComment (component : String) (s : Schema) : String :=
  s.keywords.description.getD ("defines model for " ++ component ++ ".")

theorem run_declareComponent {components : Dict String} {component name : String} {s : Schema}
    {u : Unit} {e e' : Emission}
    (h : (declareComponent components component name s).run e = .ok (u, e')) :
    name ∉ e.begun ∧ ∃ body e₁, BodyRun components name s (e.beginning name) body e₁ ∧
      e' = e₁.declaring ⟨name, componentComment component s, body⟩ := by
  obtain ⟨_, e₁, hb, hrest⟩ := run_bind.mp h
  obtain ⟨body, e₂, hr, hd⟩ := run_bind.mp hrest
  obtain ⟨hfree, rfl⟩ := run_begin.mp hb
  exact ⟨hfree, body, e₂, bodyRun_of_run hr, run_declare.mp hd⟩

def declaredName (components : Dict String) (component : String) : String :=
  (components.get? component).getD component

theorem declareAll_cons_ok {components : Dict String} {component : String} {s : Schema}
    {rest : List (String × Schema)} {e e' : Emission}
    (h : declareAll components e ((component, s) :: rest) = .ok e') :
    ∃ e₁, (declareComponent components component (declaredName components component) s).run e
        = .ok ((), e₁) ∧ declareAll components e₁ rest = .ok e' := by
  rw [declareAll] at h
  split at h
  · next u e₁ hr => exact ⟨e₁, hr, h⟩
  · cases h

theorem emit_ok {doc : OpenApi} {package : String} {f : SourceFile}
    (h : emit doc package = .ok f) :
    ∃ e, declareAll (componentNames [] doc.schemas) {} doc.schemas = .ok e ∧
      f = ⟨package, doc.title, e.imports, e.declarations⟩ := by
  simp only [emit] at h
  cases hd : declareAll (componentNames [] doc.schemas) {} doc.schemas with
  | error fault => rw [hd] at h; cases h
  | ok e => rw [hd] at h; cases h; exact ⟨e, rfl, rfl⟩

end ResourceModels.Go.Emission
