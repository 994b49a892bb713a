import ResourceModels.Archive.Reading
import ResourceModels.Docker.Options
import ResourceModels.Host.Walk
import ResourceModels.FileTree

/-!
Archives of trees. Packing puts every directory and file of a store below one directory; unpacking
writes the files of an archive into a store and passes over everything else.
-/

namespace ResourceModels.Archive

structure PackOptions where
  /-- The directory of the machine that links are followed from; without one there must be none. -/
  linkBase : Option String := none
  owner : Owner := {}
deriving DecidableEq, Repr, Inhabited

def directory (path : String) : Member := ⟨path ++ "/", .directory, 0o777, []⟩

def file (path : String) (mode : Nat) (contents : ByteArray) : Member :=
  ⟨path, .file, mode, contents.data.toList⟩

/-- A node met below a directory that a link leads to. -/
def metMember (path : String) (m : Host.Met) : List Member :=
  if m.segments = [] then []
  else
    let rest := String.ofList ((Text.join "/" m.segments).toList.map fun c =>
      if c = '\\' then '/' else c)
    match m.node with
    | .dir => [directory (Path.join path rest)]
    | .file contents _ => [file (Path.join path rest) Entry.defaultMode contents]
    | .link _ => []

/-- What stands in the place of a link: the file or directory it leads to on the machine, or nothing
if it leads nowhere. -/
def linkMembers (h : Host) (base path link : String) : Except FileError (List Member) :=
  match Host.canonical h (HostPath.join base link) with
  | .error _ => .ok []
  | .ok target =>
    match Host.stat h true target with
    | .error cause => .error (.host target cause)
    | .ok (_, .file contents _) => .ok [file path Entry.defaultMode contents]
    | .ok _ =>
      match Host.walkFrom h true target with
      | .error f => .error (.host target f.cause)
      | .ok all => .ok (directory path :: all.flatMap (metMember path))

def entryMembers (h : Host) (options : PackOptions) (start path : String) (e : Entry) :
    Except FileError (List Member) :=
  if e.isLink then
    match options.linkBase with
    | none => .error (.linkWithoutBase path)
    | some base => linkMembers h base (Path.join start path) path
  else .ok [file (Path.join start path) e.mode e.contents]

section

variable {σ : Type} [FileStore σ]

def written (owner : Owner) (members : List Member) : Except FileError Bytes :=
  match members.mapM (memberBytes? owner) with
  | some l => .ok l.flatten
  | none => .error .archive

/-- The directories of a store below the directory `start`, that one included. -/
def directories (start : String) (s : σ) : List Member :=
  (if start = "" then [] else [directory start]) ++
    (FileStore.dirs s).map fun dir => directory (Path.join start dir)

/-- A file of a store below the directory `start`, as it is written. -/
def writtenFile (h : Host) (options : PackOptions) (start : String) (s : σ) (path : String) :
    Except FileError Bytes :=
  match FileStore.lookup? s path with
  | some e => do written options.owner (← entryMembers h options start path e)
  | none => .ok []

/-- The archive of a store below a directory: its directories and then its files, in order. -/
def pack (h : Host) (options : PackOptions) (dir : String) (s : σ) : Except FileError Bytes := do
  let start ← Path.normalize dir
  let dirs ← written options.owner (directories start s)
  let files ← (FileStore.paths s).mapM (writtenFile h options start s)
  return dirs ++ files.flatten ++ ending

structure UnpackOptions where
  /-- What is taken off the front of names. -/
  stripStart : String := ""
  /-- How many bytes of each file are taken. -/
  maxFileSize : Nat := Docker.defaultMaxFileSize
deriving DecidableEq, Repr, Inhabited

def memberPath (stripStart : String) (name : Bytes) : String :=
  let path := String.ofList ((Text.lossyFrom none name).map fun c => if c = '\\' then '/' else c)
  let path := (Text.after? "./" path).getD path
  (Text.after? stripStart path).getD path

/-- The file of a member, under the path where it goes. -/
def memberFile (options : UnpackOptions) (f : Found) : Except FileError (String × Entry) := do
  let path ← Path.normalizeFile (memberPath options.stripStart f.name)
  let contents := f.raw.data.take (min f.raw.size options.maxFileSize)
  return (path, ⟨⟨contents.toArray⟩, Header.mode f.raw.block, none⟩)

/-- Puts members into a store in order, up to the first whose path is refused, and counts the
files. -/
def unpackMembers (options : UnpackOptions) (s : σ) : List Found → σ × Except FileError Nat
  | [] => (s, .ok 0)
  | f :: rest =>
    if !Header.isFile f.raw.block then unpackMembers options s rest
    else match memberFile options f with
      | .error cause => (s, .error cause)
      | .ok (path, e) =>
        let (s, count) := unpackMembers options (FileStore.put s path e) rest
        (s, count.map (· + 1))

/-- Puts the files of an archive into a store. What was put before the archive goes wrong stays. -/
def unpack (options : UnpackOptions) (bytes : Bytes) (s : σ) : σ × Except FileError Nat :=
  let (found, complete) := read bytes
  match unpackMembers options s found with
  | (s, .ok count) => (s, if complete then .ok count else .error .archive)
  | failed => failed

end

end ResourceModels.Archive
