import ResourceModels.Collect
import ResourceModels.FileTree
import ResourceModels.Go.Emission

/-!
Go models for a tree of definitions: a module file, the shared vocabulary in a package of its own,
and a file for every kind and version.
-/

namespace ResourceModels.Go

inductive GoError
  | definition (cause : DefinitionError)
  | file (cause : FileError)
  | emission (component : String) (cause : EmissionFault)

instance : Fault GoError where
  code
    | .definition _ => "GO_001"
    | .file _ => "GO_002"
    | .emission .. => "GO_003"
  category _ := "go"
  message
    | .definition cause => Fault.message cause
    | .file cause => Fault.message cause
    | .emission component cause =>
      "failed to generate Go code for " ++ component ++ ": " ++ cause.message
  causes
    | .definition cause => Fault.causes cause
    | .file cause => Fault.causes cause
    | .emission .. => []

def moduleFile : String := "module dev.crossgen.io/models\n\ngo 1.23\n"

/-- The shared components of all documents; of those with one name the first is taken. -/
def sharedDocument (documents : List OpenApi) : OpenApi :=
  let shared := (documents.flatMap (·.schemas)).filter fun c => Vocabulary.isShared c.1
  { title := "io.k8s.apimachinery.pkg.apis.meta.v1", revision := "v1"
    schemas := shared.foldl (fun d c => if d.contains c.1 then d else d.insert c.1 c.2) [] }

def source (doc : OpenApi) (package : String) : Except GoError SourceFile :=
  (emit doc package).mapError fun failure => .emission failure.1 failure.2

def sharedSource (documents : List OpenApi) : String × Except GoError SourceFile :=
  (modelPath "meta.k8s.io" "meta" "v1", source (prepareShared (sharedDocument documents)) "v1")

def kindSource (e : Extract) : String × Except GoError SourceFile :=
  (modelPath e.group e.kind e.version, source (prepare e.document) e.version)

/-- The Go files for some documents in the order in which they are written. -/
def sources (extracts : List Extract) : List (String × Except GoError SourceFile) :=
  sharedSource (extracts.map (·.document)) :: extracts.map kindSource

def writeSource (t : FileTree) (s : String × Except GoError SourceFile) :
    Except GoError FileTree := do
  let file ← s.2
  (FileStore.writeText t s.1 file.text).mapError .file

/-- The Go models of the definitions among some files, if there are definitions. -/
def generate {σ : Type} [FileStore σ] (files : σ) (exclude : List String) :
    Except GoError (Option FileTree) := do
  let extracts ← (Collect.documents files exclude).mapError .definition
  if extracts.isEmpty then return none
  let t ← (FileStore.writeText (∅ : FileTree) "models/go.mod" moduleFile).mapError .file
  return some (← (sources extracts).foldlM writeSource t)

end ResourceModels.Go
