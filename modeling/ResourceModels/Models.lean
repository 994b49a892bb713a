import ResourceModels.Go
import ResourceModels.JsonSchema
import ResourceModels.Kcl
import ResourceModels.Python
import ResourceModels.Registry

/-!
Models in every language for one tree of definitions. Nothing is registered before all generators
have succeeded; the first failure, in the order KCL, Python, Go, JSON Schema, is the answer.
-/

namespace ResourceModels.Models

open Sandbox

structure Options where
  kclImage : String := Kcl.defaultImage
  pythonImage : String := Python.defaultImage
  /-- The files that no generator looks at. -/
  exclude : List String := []
deriving DecidableEq, Repr, Inhabited

inductive GenerateError
  | kcl (cause : Kcl.KclError)
  | python (cause : Python.PythonError)
  | go (cause : Go.GoError)
  | json (cause : JsonSchema.JsonSchemaError)
  | registry (cause : RegistryError)
  | file (cause : FileError)

namespace GenerateError

/-- The generator that failed, if one did. -/
def start : GenerateError → String
  | .kcl _ => "kcl generation failed: "
  | .python _ => "python generation failed: "
  | .go _ => "go generation failed: "
  | .json _ => "json schema generation failed: "
  | .registry _ => ""
  | .file _ => ""

/-- How the failure reads in the part of the library that it comes from. -/
def inner : GenerateError → Report
  | .kcl cause => Fault.report cause
  | .python cause => Fault.report cause
  | .go cause => Fault.report cause
  | .json cause => Fault.report cause
  | .registry cause => Fault.report cause
  | .file cause => Fault.report cause

instance : Fault GenerateError where
  code e := e.inner.code
  category e := e.inner.category
  message e := e.start ++ e.inner.message
  causes
    | .kcl cause => Fault.trail cause
    | .python cause => Fault.trail cause
    | .go cause => Fault.trail cause
    | .json cause => Fault.trail cause
    | .registry cause => Fault.causes cause
    | .file cause => Fault.causes cause

end GenerateError

/-- The models of each language, in the order they are registered. -/
abbrev ByLanguage := List (Language × FileTree)

def present (models : List (Language × Option FileTree)) : ByLanguage :=
  models.filterMap fun m => m.2.map fun t => (m.1, t)

variable {m : Type → Type} [Monad m] {σ : Type} [FileStore σ]

def sandboxed (run : Runner m) (options : Options) (files : σ) (exclude : List String) :
    m (Except GenerateError (List (Language × Option FileTree))) := do
  match ← Kcl.generate run options.kclImage files exclude with
  | .error cause => return .error (.kcl cause)
  | .ok kcl =>
    match ← Python.generate run options.pythonImage files exclude with
    | .error cause => return .error (.python cause)
    | .ok python => return .ok [(.kcl, kcl), (.python, python)]

/-- The models of the two languages that are written at once. -/
def written (files : σ) (exclude : List String) :
    Except GenerateError (List (Language × Option FileTree)) := do
  let go ← (Go.generate files exclude).mapError .go
  let json ← (JsonSchema.generate files exclude).mapError .json
  return [(.go, go), (.json, json)]

/-- The models of the definitions among some files, in every language. -/
def generate (run : Runner m) (options : Options) (files : σ) :
    m (Except GenerateError ByLanguage) := do
  match ← sandboxed run options files options.exclude with
  | .error e => return .error e
  | .ok models => return (written files options.exclude).map fun more => present (models ++ more)

/-- Registers models in order, up to the first failure. -/
def register {ρ : Type} [Registry ρ] (registry : ρ) : ByLanguage → ρ × Except RegistryError Unit
  | [] => (registry, .ok ())
  | (language, t) :: rest =>
    match Registry.add registry language t with
    | (registry, .ok ()) => register registry rest
    | (registry, .error e) => (registry, .error e)

/-- How many files there are for each language. -/
abbrev Summary := List (Language × Nat)

def summary (models : ByLanguage) : Summary := models.map fun m => (m.1, FileStore.size m.2)

/-- Registers what a generation gave, unless it failed, and tells what was registered. -/
def settle {ρ : Type} [Registry ρ] (registry : ρ) :
    Except GenerateError ByLanguage → ρ × Except GenerateError Summary
  | .error e => (registry, .error e)
  | .ok models =>
    match register registry models with
    | (registry, .ok ()) => (registry, .ok (summary models))
    | (registry, .error e) => (registry, .error (.registry e))

def update {ρ : Type} [Registry ρ] (run : Runner m) (options : Options) (registry : ρ) (files : σ) :
    m (ρ × Except GenerateError Summary) := do
  return settle registry (← generate run options files)

end ResourceModels.Models
