import ResourceModels.FileTree
import ResourceModels.Language

/-!
Where generated models are registered, one tree for each language. A registration puts its files
over those of earlier ones and leaves the others.
-/

namespace ResourceModels

structure RegistryError where
  language : Language
  cause : FileError

instance : Fault RegistryError where
  code _ := "REGISTRY_001"
  category _ := "registry"
  message e := "failed to register " ++ e.language.name ++ " models: " ++ Fault.message e.cause
  causes e := Fault.trail e.cause

/-- A place that takes up models. One that fails may have taken up some of them. -/
class Registry (ρ : Type) where
  add : ρ → Language → FileTree → ρ × Except RegistryError Unit

structure MemoryRegistry where
  models : Language → Option FileTree

namespace MemoryRegistry

def empty : MemoryRegistry := ⟨fun _ => none⟩

instance : EmptyCollection MemoryRegistry := ⟨empty⟩

/-- The languages with models, in the order of generation. -/
def languages (r : MemoryRegistry) : List Language :=
  Language.all.filter fun l => (r.models l).isSome

def set (r : MemoryRegistry) (language : Language) (t : FileTree) : MemoryRegistry :=
  ⟨fun l => if l = language then some t else r.models l⟩

/-- Writes entries in order, up to the first that cannot be written. -/
def writeAll (t : FileTree) : List (String × Entry) → FileTree × Except FileError Unit
  | [] => (t, .ok ())
  | (path, e) :: rest =>
    match FileStore.writeEntry t path e with
    | .ok t => writeAll t rest
    | .error cause => (t, .error cause)

def add (r : MemoryRegistry) (language : Language) (models : FileTree) :
    MemoryRegistry × Except RegistryError Unit :=
  let (t, result) := writeAll ((r.models language).getD ∅) models.entries
  (r.set language t, result.mapError fun cause => ⟨language, cause⟩)

instance : Registry MemoryRegistry := ⟨add⟩

end MemoryRegistry

end ResourceModels
