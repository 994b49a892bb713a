import ResourceModels.Collect
import ResourceModels.Python.Layout
import ResourceModels.Sandbox
import ResourceModels.Text.Lower

/-!
Python models for a tree of definitions. Every served version of a resource becomes a document whose
components go by their reversed group; a generator in a sandbox makes a package of each document,
and the packages are merged.
-/

namespace ResourceModels.Python

open Sandbox

inductive PythonError
  | definition (cause : DefinitionError)
  | sandbox (cause : SandboxError)
  | layout (cause : LayoutError)

instance : Fault PythonError where
  code
    | .definition _ => "PYTHON_001"
    | .sandbox _ => "PYTHON_002"
    | .layout (.move ..) => "PYTHON_003"
    | .layout (.file _) => "PYTHON_004"
  category _ := "python"
  message
    | .definition cause => Fault.message cause
    | .sandbox cause => "python model generation failed: " ++ Fault.message cause
    | .layout cause => cause.message
  causes
    | .definition cause => Fault.causes cause
    | .sandbox cause => Fault.trail cause
    | .layout cause => cause.causes

def defaultImage : String := "xpkg.upbound.io/upbound/datamodel-code-generator:v0.26.3"

def script : String :=
  "set -e\nfor f in $(find workdir -name '*.yaml' | sort); do\n" ++
  "  name=$(basename \"$f\" .yaml)\n  mkdir -p \"generated/$name\"\n" ++
  "  datamodel-codegen --input \"$f\" --input-file-type openapi --output-model-type " ++
  "pydantic_v2.BaseModel --use-annotated --output \"generated/$name\"\ndone"

def request (image : String) : Request :=
  { image, command := ["sh", "-c", script], baseFolder := "workdir" }

/-- The labels of a group from the last to the first. -/
def reverseGroup (group : String) : String :=
  Text.join "." (Text.split (· = '.') group).reverse

def documentName (group version kind : String) : String :=
  String.ofList (group.toList.map fun c => if c = '.' then '_' else c) ++ "_" ++ version ++ "_" ++
    Text.lower kind ++ ".yaml"

/-- A component under the name that its reversed group gives it. -/
def renameOne (group version : String) (doc : OpenApi) (name : String) : OpenApi :=
  match Text.after? (group ++ "." ++ version ++ ".") name with
  | some rest => doc.renameComponent name (reverseGroup group ++ "." ++ version ++ "." ++ rest)
  | none => doc

/-- The document that is handed to the generator. -/
def prepare (group version : String) (doc : OpenApi) : OpenApi :=
  let own := (Dict.keys doc.schemas).filter fun name => !Vocabulary.isShared name
  { own.foldl (renameOne group version) doc with paths := [] }

def stageResource (t : FileTree) (s : Staged) : Except PythonError FileTree := do
  let r := s.definition
  let documents ← r.documents.mapError .definition
  documents.foldlM (fun t d =>
    let text := (prepare r.group d.1 d.2).toYaml
    let written := FileStore.writeText t (documentName r.group d.1 r.names.kind) text
    written.mapError fun cause => PythonError.layout (.file cause)) t

/-- The documents of the definitions among some files. -/
def stage {σ : Type} [FileStore σ] (files : σ) (exclude : List String) :
    Except PythonError FileTree := do
  let staged ← (Collect.resources files exclude).mapError .definition
  staged.foldlM stageResource ∅

/-- The models among what the generator left. -/
def collect (t : FileTree) : Except PythonError FileTree := do
  let t ← (arrange t "generated" "sorted").mapError .layout
  match FileStore.copyDir t "sorted" (∅ : FileTree) "models" with
  | .ok (models, _) => return models
  | .error cause => throw (.layout (.file cause))

/-- The Python models of the definitions among some files. Without definitions nothing is run. -/
def generate {m : Type → Type} [Monad m] {σ : Type} [FileStore σ] (run : Runner m) (image : String)
    (files : σ) (exclude : List String) : m (Except PythonError (Option FileTree)) :=
  match stage files exclude with
  | .error e => return .error e
  | .ok t =>
    if FileStore.isEmpty t then return .ok none
    else do
      let outcome ← run t (request image)
      match outcome.result with
      | .error cause => return .error (.sandbox cause)
      | .ok () => return (collect outcome.tree).map some

end ResourceModels.Python
