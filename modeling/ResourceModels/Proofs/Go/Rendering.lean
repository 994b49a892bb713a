import ResourceModels.Proofs.Go.KindFiles
import ResourceModels.Proofs.OpenApi

/-!
# Schemas as Go types

How a schema of a document is written in Go, said by the schema as it is before preparation and the
declarations of the file: numbers are `int`, a reference to a shared component is the type of that
name in the shared package, an object is a struct with a field for every property, and so on for
the parts that its form looks into. Preparation keeps the form of all other schemas, so emission of
a prepared schema gives a type that the schema is written as.
-/

namespace ResourceModels.Go

open FileStore (lookup?)
open Emission (Form form isStruct isEnumeration enumeration fieldName fieldFor)

section

variable (target? : Schema → Option String) (names : Dict String) (declarations : Dict Declaration)

/-- A schema that is neither taken from the shared package nor a number. -/
structure Ordinary (s : Schema) : Prop where
  own : target? s = none
  notNumber : s.keywords.isType "number" = false

mutual

/-- A type that a schema is written as, where the components have the given names. -/
inductive Rendered : Schema → TypeExpr → Prop
  | shared {s : Schema} {target : String} (h : target? s = some target) :
      Rendered s (.written (sharedAlias ++ "." ++ shortName target))
  | whole {s : Schema} (h : target? s = none) (hn : s.keywords.isType "number" = true) :
      Rendered s (.written "int")
  | reference {s : Schema} {component name : String} (h : Ordinary target? s)
      (hf : form s = .reference (Schema.componentRef component))
      (hn : names.get? component = some name) : Rendered s (.declared name)
  | sole {s member : Schema} {t : TypeExpr} (h : Ordinary target? s) (hf : form s = .sole member)
      (hm : Rendered member t) : Rendered s t
  | any {s : Schema} (h : Ordinary target? s) (hf : form s = .any) : Rendered s .any
  | struct {s : Schema} {name comment : String} {fields : List Field} (h : Ordinary target? s)
      (hf : form s = .struct)
      (hd : declarations.get? name = some ⟨name, comment, .struct fields⟩)
      (hfields : RenderedFields [] s.properties fields) : Rendered s (.declared name)
  | enumeration {s : Schema} {name comment : String} (h : Ordinary target? s)
      (hf : form s = .enumeration)
      (hd : declarations.get? name = some ⟨name, comment, enumeration name s.keywords⟩) :
      Rendered s (.declared name)
  | scalar {s : Schema} {t : TypeExpr} (h : Ordinary target? s) (hf : form s = .scalar t) :
      Rendered s t
  | arrayOfAny {s : Schema} (h : Ordinary target? s) (hf : form s = .array none) :
      Rendered s (.slice .any)
  | array {s items : Schema} {t : TypeExpr} (h : Ordinary target? s)
      (hf : form s = .array (some items)) (hi : Rendered items t) : Rendered s (.slice t)
  | mapOfAny {s : Schema} (h : Ordinary target? s) (hf : form s = .map none) :
      Rendered s (.map .any)
  | map {s values : Schema} {t : TypeExpr} (h : Ordinary target? s)
      (hf : form s = .map (some values)) (hv : Rendered values t) : Rendered s (.map t)

/-- Fields for properties in order, none of them required, beside fields with the taken names. -/
inductive RenderedFields : List String → List (String × Schema) → List Field → Prop
  | nil (taken : List String) : RenderedFields taken [] []
  | cons {taken : List String} {property : String} {s : Schema} {t : TypeExpr}
      {rest : List (String × Schema)} {fields : List Field} (ht : Rendered s t)
      (hrest : RenderedFields (fieldName taken property :: taken) rest fields) :
      RenderedFields taken ((property, s) :: rest)
        (fieldFor [] (fieldName taken property) property s t :: fields)

end

/-- The body of the declaration that is made for a schema. -/
inductive Describes (s : Schema) : TypeBody → Prop
  | struct {fields : List Field} (hs : isStruct s = true)
      (hfields : RenderedFields target? names declarations [] s.properties fields) :
      Describes s (.struct fields)
  | enumeration (name : String) (hs : isStruct s = false)
      (he : isEnumeration s.keywords = true) : Describes s (enumeration name s.keywords)
  | synonym {t : TypeExpr} (hs : isStruct s = false) (he : isEnumeration s.keywords = false)
      (ht : Rendered target? names declarations s t) : Describes s (.alias t)

end

/-!
## Preparation of a schema

Only what is spelled out by preparation has another form than before.
-/

namespace Emission.Form

end Emission.Form

/-- Schemas by name of property, the second ones being what becomes of the first. -/
def PropertiesBecome (P : Schema → Schema → Prop) :
    List (String × Schema) → List (String × Schema) → Prop :=
  List.Forall₂ fun p p' => p.1 = p'.1 ∧ P p.2 p'.2

theorem Renamed.properties {s s' : Schema} (h : Renamed s s') :
    PropertiesBecome Renamed s.properties s'.properties := by
  have hnamed : ∀ name,
      PropertiesBecome Renamed s.properties (nameProperties name s.properties) := by
    intro name
    rw [nameProperties_eq, PropertiesBecome, List.forall₂_map_right_iff, List.forall₂_same]
    exact fun p _ => ⟨rfl, .property _ p.2⟩
  cases h with
  | same => exact List.forall₂_same.mpr fun p _ => ⟨rfl, .same p.2⟩
  | named name => exact hnamed name
  | property name =>
    rw [nameProperty_eq]
    exact hnamed name

section

variable {target? : Schema → Option String} {g : Schema → Schema}

namespace Prepares

variable {s s' : Schema}

end Prepares

end

section

variable {target? : Schema → Option String} {g : Schema → Schema} {names : Dict String}
  {declarations : Dict Declaration} {e e₁ e' : Emission}

/-- All that is declared so far is declared in the end. -/
def Within (e : Emission) (declarations : Dict Declaration) : Prop :=
  ∀ name d, e.declarations.get? name = some d → declarations.get? name = some d

theorem Within.declared {d : Declaration} (h : Within (e.declaring d) declarations) :
    declarations.get? d.name = some d := by
  refine h d.name d ?_
  rw [Emission.declaring, Dict.get?_insert, if_pos rfl]

section

variable (target? names declarations)

/-- Each declaration that a run adds describes one of some schemas. -/
def Adds (schemas : List Schema) (e e' : Emission) : Prop :=
  ∀ name d, e'.declarations.get? name = some d → e.declarations.get? name = some d ∨
    ∃ s ∈ schemas, Describes target? names declarations s d.body

end

namespace Adds

variable {schemas more : List Schema}

theorem unchanged (h : e'.declarations = e.declarations) :
    Adds target? names declarations schemas e e' := fun _ _ hd => .inl (h ▸ hd)

theorem mono (h : Adds target? names declarations schemas e e') (hsub : schemas ⊆ more) :
    Adds target? names declarations more e e' := fun name d hd =>
  (h name d hd).imp_right fun ⟨s, hs, hd⟩ => ⟨s, hsub hs, hd⟩

theorem trans (h : Adds target? names declarations schemas e e₁)
    (h' : Adds target? names declarations schemas e₁ e') :
    Adds target? names declarations schemas e e' := fun name d hd =>
  (h' name d hd).elim (h name d) .inr

theorem declaring {d : Declaration} {s : Schema}
    (h : Adds target? names declarations schemas (e.beginning d.name) e₁) (hs : s ∈ schemas)
    (hd : Describes target? names declarations s d.body) :
    Adds target? names declarations schemas e (e₁.declaring d) := by
  intro name own hown
  rw [Emission.declaring, Dict.get?_insert] at hown
  split at hown
  · cases hown
    exact .inr ⟨s, hs, hd⟩
  · exact h name own hown

end Adds

section

variable (target? g names declarations)

end

end

end ResourceModels.Go
