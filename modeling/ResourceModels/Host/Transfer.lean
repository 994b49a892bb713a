import ResourceModels.FileTree
import ResourceModels.Host.Walk
import ResourceModels.Registry
import ResourceModels.Scaffold

/-!
Trees and the machine. A directory is loaded as a tree of its files and links; a tree is written
below a directory without its links.
-/

namespace ResourceModels.Host

/-- The path of a node from the start of a walk, as trees write it. -/
def relative (m : Met) : String :=
  String.ofList ((Text.join "/" m.segments).toList.map fun c => if c = '\\' then '/' else c)

/-- Takes a node up into a tree. Directories are there as far as they hold files. -/
def takeUp (t : FileTree) (m : Met) : Except FileError FileTree :=
  if m.segments = [] then .ok t
  else match m.node with
    | .dir => .ok t
    | .link target => t.writeLink (relative m) target
    | .file contents mode => FileStore.writeEntry t (relative m) ⟨contents, mode % 0o1000, none⟩

def walkError (f : WalkFault) : FileError := .host f.path f.cause

/-- The tree of a directory. Links are kept as they are. -/
def load (h : Host) (root : String) : Except FileError FileTree := do
  let all ← (walkFrom h false root).mapError walkError
  all.foldlM takeUp ∅

def writeAt (h : Host) (path : String) (contents : ByteArray) : Host × Except FileError Unit :=
  let dir := HostPath.parent path
  match makeDirs h dir with
  | .error cause => (h, .error (.host dir cause))
  | .ok h =>
    match writeFile h path contents with
    | .error cause => (h, .error (.host path cause))
    | .ok h => (h, .ok ())

/-- Writes files below a directory in order, up to the first that cannot be written, and counts
them. -/
def writeEntries (h : Host) (root : String) : List (String × Entry) → Host × Except FileError Nat
  | [] => (h, .ok 0)
  | (path, e) :: rest =>
    if e.isLink then writeEntries h root rest
    else match writeAt h (HostPath.join root path) e.contents with
      | (h, .error cause) => (h, .error cause)
      | (h, .ok ()) =>
        let (h, count) := writeEntries h root rest
        (h, count.map (· + 1))

/-- Writes the files of a tree below a directory. -/
def writeTree (h : Host) (root : String) (t : FileTree) : Host × Except FileError Nat :=
  writeEntries h root t.entries

/-- Whether a directory is missing or holds nothing. What cannot be listed counts as empty. -/
def isEmptyDir (h : Host) (path : String) : Bool :=
  match readDir h path with
  | .ok names => names.isEmpty
  | .error _ => true

open Scaffold (ScaffoldError)

/-- Puts a link to the models into a test directory, in the place of an older one. -/
def linkModels (h : Host) (dir models : String) : Host × Except ScaffoldError Unit :=
  let path := HostPath.join dir "model"
  let failed (h : Host) (cause : HostFault) :=
    (h, Except.error (ScaffoldError.link path models cause))
  let freed := if hasNode h path then unlink h path else .ok h
  match freed with
  | .error cause => failed h cause
  | .ok h =>
    match makeLink h path models with
    | .error cause => failed h cause
    | .ok h => (h, .ok ())

/-- Writes a new test and links it to the models. A directory that holds something is left as it is,
unless it may be written over. -/
def writeTest (h : Host) (t : FileTree) (dir models : String) (force : Bool) :
    Host × Except ScaffoldError Nat :=
  if !force && !isEmptyDir h dir then (h, .error (.notEmpty dir))
  else match writeTree h dir t with
    | (h, .error cause) => (h, .error (.file cause))
    | (h, .ok count) =>
      let (h, result) := linkModels h dir models
      (h, result.map fun _ => count)

/-- Models registered below a directory of the machine, a directory for each language. -/
structure CacheRegistry where
  host : Host
  root : String

def CacheRegistry.dir (r : CacheRegistry) (language : Language) : String :=
  HostPath.join r.root language.name

instance : Registry CacheRegistry where
  add r language t :=
    let (host, result) := writeTree r.host (r.dir language) t
    let result := result.mapError fun cause => RegistryError.mk language cause
    ({ r with host }, result.map fun _ => ())

end ResourceModels.Host
