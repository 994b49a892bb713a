import ResourceModels.ApiVersion
import ResourceModels.Layout

/-!
Where KCL schemas belong. The importer names a file after group, version and kind in one word; here
every kind gets the directory of its reversed group and version, so that kinds of different groups
do not meet. The schemas of the shared vocabulary are kept in one place.
-/

namespace ResourceModels.Kcl

/-- Where a file of the importer belongs. The first known version in its name tells the group from
the kind; there is no place for a name without a group or a kind. -/
def relocated? (fileName : String) : Option String :=
  match (Text.split (· = '_') fileName).span (fun part => !ApiVersion.isKnown part) with
  | (label :: labels, version :: words) =>
    let name := Text.replace "swagger" "" (String.join words)
    if name = "" then none
    else some (Text.join "/" ((label :: labels).reverse ++ [version]) ++ "/" ++ name)
  | _ => none

section

variable {σ : Type} [FileStore σ]

def copyEntry (files : σ) (source target : String) : Except LayoutError σ :=
  match FileStore.lookup? files source with
  | some e => (FileStore.writeEntry files target e).mapError (.move source)
  | none => .ok files

def sharedFolder : String := "k8s/apimachinery/pkg/apis/meta/v1"

/-- Lets managed fields be anything, in the schema of object metadata. -/
def loosen (files : σ) (objectMeta : String) : Except LayoutError σ :=
  if FileStore.isFile files objectMeta then do
    let text ← (FileStore.readText files objectMeta).mapError (.move objectMeta)
    let loose :=
      Text.replace "managedFields?: [ManagedFieldsEntry]" "managedFields?: any" text
    (FileStore.writeText files objectMeta loose).mapError (.move objectMeta)
  else .ok files

def removeFile (files : σ) (path : String) : Except LayoutError σ :=
  match FileStore.remove files path with
  | .ok (files, _) => .ok files
  | .error cause => .error (.file cause)

/-- Copies a shared schema to the same place below the target. -/
def moveShared (source target : String) (files : σ) (file : String) : Except LayoutError σ :=
  match Path.below? file source with
  | some rest => copyEntry files file (Path.join target rest)
  | none => .ok files

/-- Copies a schema that is not a shared one to where it belongs, if there is a place for it. -/
def moveKind (shared target : String) (files : σ) (file : String) : Except LayoutError σ :=
  if Path.isBelow file shared then .ok files
  else match relocated? (Path.fileName file) with
    | some path => copyEntry files file (Path.join target path)
    | none => .ok files

def under (files : σ) (dir : String) : Except LayoutError (List String) :=
  (FileStore.filesUnder files dir).mapError .file

/-- Lays out below `target` what the importer left below `source`. -/
def arrange (files : σ) (source target : String) : Except LayoutError σ := do
  let files ← ["kcl.mod", "kcl.mod.lock"].foldlM (fun files name =>
    copyEntry files (Path.join source name) (Path.join target name)) files
  let folder := Path.join source sharedFolder
  let files ← loosen files (Path.join folder "object_meta.k")
  let files ← removeFile files (Path.join folder "managed_fields_entry.k")
  let shared := Path.join source "k8s"
  let files ← (← under files shared).foldlM (moveShared shared (Path.join target "k8s")) files
  (← under files source).foldlM (moveKind shared target) files

end

end ResourceModels.Kcl
