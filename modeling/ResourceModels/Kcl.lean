import ResourceModels.Collect
import ResourceModels.Kcl.Layout
import ResourceModels.Sandbox

/-!
KCL schemas for a tree of definitions. Every resource is handed to the KCL importer in a sandbox,
and what it leaves is laid out by group and version.
-/

namespace ResourceModels.Kcl

open Sandbox

inductive KclError
  | definition (cause : DefinitionError)
  | sandbox (cause : SandboxError)
  | layout (cause : LayoutError)

instance : Fault KclError where
  code
    | .definition _ => "KCL_001"
    | .sandbox _ => "KCL_002"
    | .layout (.move ..) => "KCL_003"
    | .layout (.file _) => "KCL_004"
  category _ := "kcl"
  message
    | .definition cause => Fault.message cause
    | .sandbox cause => "kcl import failed: " ++ Fault.message cause
    | .layout cause => cause.message
  causes
    | .definition cause => Fault.causes cause
    | .sandbox cause => Fault.trail cause
    | .layout cause => cause.causes

def defaultImage : String := "xpkg.upbound.io/upbound/kcl:v0.10.6"

def script : String := "find . -name \"*.yaml\" -exec kcl import -m crd -s \x7b\x7d \\;"

def request (image : String) : Request :=
  { image, command := ["sh", "-c", script], baseFolder := "workdir" }

/-- The tree that is handed to the importer, if there are definitions. -/
def stage {σ : Type} [FileStore σ] (files : σ) (exclude : List String) :
    Except KclError (Option FileTree) := do
  let staged ← (Collect.resources files exclude).mapError .definition
  if staged.isEmpty then return none
  let t ← (staged.foldlM (fun t s => FileStore.write t s.path s.contents) (∅ : FileTree)).mapError
    fun cause => .layout (.file cause)
  return some t

/-- The models among what the importer left. -/
def collect (t : FileTree) : Except KclError FileTree := do
  let t ← (arrange t "models" "sorted").mapError .layout
  match FileStore.copyDir t "sorted" (∅ : FileTree) "models" with
  | .ok (models, _) => return models
  | .error cause => throw (.layout (.file cause))

/-- The KCL schemas of the definitions among some files. Without definitions nothing is run. -/
def generate {m : Type → Type} [Monad m] {σ : Type} [FileStore σ] (run : Runner m) (image : String)
    (files : σ) (exclude : List String) : m (Except KclError (Option FileTree)) :=
  match stage files exclude with
  | .error e => return .error e
  | .ok none => return .ok none
  | .ok (some t) => do
    let outcome ← run t (request image)
    match outcome.result with
    | .error cause => return .error (.sandbox cause)
    | .ok () => return (collect outcome.tree).map some

end ResourceModels.Kcl
