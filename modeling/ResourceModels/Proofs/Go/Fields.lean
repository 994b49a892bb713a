import ResourceModels.Proofs.Extract.Orderly
import ResourceModels.Proofs.Go.Rendering
import ResourceModels.Proofs.Go.ValidNames

/-!
# Fields that may be left out

Nothing is required of a prepared schema, so every field of a struct has a type with a nil value: a
pointer, where the type of its property has none. No other type is written in a Go file than those
that schemas are written as, and there is no float among them. Only a schema that names its own type
can have it look otherwise.
-/

namespace ResourceModels.Go

open FileStore (lookup?)
open Emission (isStruct fieldName fieldFor)

/-- A pointer, a slice, a map or the type of any value. -/
def TypeExpr.HasNil : TypeExpr → Prop
  | .any | .slice _ | .map _ | .pointer _ => True
  | _ => False

instance : DecidablePred TypeExpr.HasNil
  | .any | .slice _ | .map _ | .pointer _ => .isTrue trivial
  | .builtin _ | .time | .declared _ | .written _ => .isFalse id

theorem TypeExpr.HasNil.optional {t : TypeExpr} (h : t.HasNil) : t.optional.HasNil := by
  unfold TypeExpr.optional
  split
  · exact h
  · trivial

/-- The types of texts, whole numbers and truth values. -/
def scalarTypes : List TypeExpr :=
  [.time, .slice (.builtin "byte"), .builtin "string", .builtin "int32", .builtin "int64",
    .builtin "bool"]

theorem mem_scalarTypes {k : Keywords} {t : TypeExpr} (h : Emission.scalar? k = some t)
    (hn : k.isType "number" = false) : t ∈ scalarTypes := by
  unfold Emission.scalar? at h
  repeat' split at h
  all_goals first | cases h; decide | skip
  all_goals simp_all [Keywords.isType]

/-- The types that schemas are written as, where a file declares types with some names. -/
inductive Built (declared : List String) : TypeExpr → Prop
  | shared (target : String) : Built declared (.written (sharedAlias ++ "." ++ shortName target))
  | whole : Built declared (.written "int")
  | declared {name : String} (h : name ∈ declared) : Built declared (.declared name)
  | any : Built declared .any
  | scalar {t : TypeExpr} (h : t ∈ scalarTypes) : Built declared t
  | slice {t : TypeExpr} (h : Built declared t) : Built declared (.slice t)
  | map {t : TypeExpr} (h : Built declared t) : Built declared (.map t)

namespace Built

variable {declared : List String} {t : TypeExpr}

end Built

section

variable {target? : Schema → Option String} {names : Dict String} {declarations : Dict Declaration}

theorem Rendered.built {own : List String} (hnames : ∀ name ∈ Dict.values names, name ∈ own)
    (hkeys : ∀ name ∈ Dict.keys declarations, name ∈ own) {s : Schema} {t : TypeExpr}
    (h : Rendered target? names declarations s t) : Built own t := by
  -- Fields are only looked at where their struct is declared, so the induction is on the schema
  -- along its form and needs nothing of the fields.
  induction s using Emission.form_induction generalizing t with
  | step s ih =>
    have hdeclared : ∀ {name : String} {d : Declaration}, declarations.get? name = some d →
        Built own (.declared name) := fun hd =>
      .declared (hkeys _ (Dict.isSome_get?_iff.mp (Option.isSome_of_eq_some hd)))
    have hpart : ∀ {f : Emission.Form} {part : Schema} {t : TypeExpr}, Emission.form s = f →
        part ∈ f.parts s → Rendered target? names declarations part t → Built own t :=
      fun hf hp ht => ih _ (hf ▸ hp) ht
    cases h with
    | shared => exact .shared _
    | whole => exact .whole
    | reference _ _ hn =>
      exact .declared (hnames _ (List.mem_map_of_mem (f := fun c => c.2) (Dict.mem_of_get? hn)))
    | sole _ hf hm => exact hpart hf List.mem_cons_self hm
    | any => exact .any
    | struct _ _ hd => exact hdeclared hd
    | enumeration _ _ hd => exact hdeclared hd
    | scalar h hf => exact .scalar (mem_scalarTypes (Emission.scalar?_of_form hf) h.notNumber)
    | arrayOfAny => exact .slice .any
    | array _ hf hi => exact .slice (hpart hf List.mem_cons_self hi)
    | mapOfAny => exact .map .any
    | map _ hf hv => exact .map (hpart hf List.mem_cons_self hv)

section

variable (target? names declarations)

end

namespace RenderedFields

variable {taken : List String} {properties : List (String × Schema)} {fields : List Field}

end RenderedFields

end

/-!
## Files
-/

section

variable {target? : Schema → Option String} {g : Schema → Schema} {own : List (String × Schema)}
  {doc : OpenApi} {package : String} {f : SourceFile}

end

section

variable {extracts : List Extract}

end

end ResourceModels.Go
