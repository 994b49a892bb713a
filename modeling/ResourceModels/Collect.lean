import ResourceModels.Definition
import ResourceModels.Derive
import ResourceModels.Extract

/-!
The definitions of a tree of files. Every document of every YAML file is looked at, in order of
path; resources are staged as they are or written anew, and composite definitions as the resources
that they publish.
-/

namespace ResourceModels

/-- A resource with the file it comes from, and the path and contents it is staged with. -/
structure Staged where
  source : String
  path : String
  contents : ByteArray
  definition : ResourceDefinition
deriving BEq

namespace Collect

/-- Whether a file is left out: by its name, or by how its path begins. -/
def isExcluded (file : String) (exclude : List String) : Bool :=
  exclude.any fun e =>
    e ≠ "" && (Path.fileName file = e || Text.startsWith (Text.trimStart "./" e) file)

def isYaml (file : String) : Bool := Text.endsWith ".yaml" file || Text.endsWith ".yml" file

def written (source path : String) (r : ResourceDefinition) : Staged :=
  ⟨source, path, Text.encode r.toYaml, r⟩

/-- What one document of a file stages. `alone` says whether the file has no other document. -/
def stage (file : String) (contents : ByteArray) (alone : Bool) (index : Nat) :
    Manifest → Except DefinitionError (List Staged)
  | .resource r =>
    .ok [if alone then ⟨file, file, contents, r⟩
      else written file (file ++ "-" ++ toString index ++ ".yaml") r]
  | .composite x => do
    let derived ← x.derive
    let base := if alone then file else file ++ "-" ++ toString index
    return written file (base ++ "-xr.yaml") derived.composite ::
      (derived.claim.map (written file (base ++ "-claim.yaml"))).toList
  | .other _ => .ok []

def stageFile (file : String) (contents : ByteArray) : Except DefinitionError (List Staged) := do
  let manifests ← Manifest.classify file contents
  let staged ← manifests.zipIdx.mapM fun m =>
    stage file contents (manifests.length == 1) m.2 m.1
  return staged.flatten

variable {σ : Type} [FileStore σ]

def sources (files : σ) (exclude : List String) : List String :=
  (FileStore.paths files).filter fun file => isYaml file && !isExcluded file exclude

def resources (files : σ) (exclude : List String) : Except DefinitionError (List Staged) := do
  let staged ← (sources files exclude).mapM fun file =>
    match FileStore.read files file with
    | .ok contents => stageFile file contents
    | .error cause => .error (.unreadable file cause)
  return staged.flatten

def extracts (s : Staged) : Except DefinitionError (List Extract) := do
  let documents ← s.definition.documents
  return documents.map fun d =>
    ⟨s.definition.group, s.definition.names.kind, d.1, s.source, d.2⟩

/-- One document for every served version of every resource. -/
def documents (files : σ) (exclude : List String) : Except DefinitionError (List Extract) := do
  return (← (← resources files exclude).mapM extracts).flatten

end Collect

end ResourceModels
