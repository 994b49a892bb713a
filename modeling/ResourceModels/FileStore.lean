import ResourceModels.Dict
import ResourceModels.Fault
import ResourceModels.Glob
import ResourceModels.Path

/-!
Stores of files keyed by relative paths. A store is known by its entries and the sorted list of its
paths; reading, writing, removing, listing and copying are defined from those for every store.
Directories are implicit: a path is one if a file lies below it, and the root always is.
-/

namespace ResourceModels

/-- A stored file, or a link when `symlink` names its target. -/
structure Entry where
  contents : ByteArray
  mode : Nat
  symlink : Option String

/-- Entries are compared by the bytes of their contents. -/
instance : DecidableEq Entry := fun a b =>
  decidable_of_iff (a.contents.data = b.contents.data ∧ a.mode = b.mode ∧ a.symlink = b.symlink) (by
    obtain ⟨⟨_⟩, _, _⟩ := a
    obtain ⟨⟨_⟩, _, _⟩ := b
    simp)

namespace Entry

def defaultMode : Nat := 0o644

def file (contents : ByteArray) : Entry := ⟨contents, defaultMode, none⟩

def link (target : String) : Entry := ⟨.empty, 0o777, some target⟩

def isLink (e : Entry) : Bool := e.symlink.isSome

end Entry

inductive PathFault
  | escapesRoot
  | isRoot
deriving DecidableEq, Repr

def PathFault.message : PathFault → String
  | .escapesRoot => "escapes the tree root"
  | .isRoot => "refers to the tree root"

/-- Why the machine's own file system refused. -/
inductive HostFault
  | notFound
  | exists
  | notDirectory
  | isDirectory
  | notEmpty
  | tooManyLinks
  | nameTooLong
  | zeroCharacter
  | invalidText
  | walk (path : String) (cause : HostFault)
  | loop (ancestor child : String)
deriving DecidableEq, Repr

def HostFault.message : HostFault → String
  | .notFound => "No such file or directory (os error 2)"
  | .exists => "File exists (os error 17)"
  | .notDirectory => "Not a directory (os error 20)"
  | .isDirectory => "Is a directory (os error 21)"
  | .notEmpty => "Directory not empty (os error 39)"
  | .tooManyLinks => "Too many levels of symbolic links (os error 40)"
  | .nameTooLong => "File name too long (os error 36)"
  | .zeroCharacter => "file name contained an unexpected NUL byte"
  | .invalidText => "stream did not contain valid UTF-8"
  | .walk path cause => "IO error for operation on " ++ path ++ ": " ++ cause.message
  | .loop ancestor child =>
    "File system loop found: " ++ child ++ " points to an ancestor " ++ ancestor

/-- What a failed walk comes from. -/
def HostFault.causes : HostFault → List String
  | .walk _ cause => cause.message :: cause.causes
  | _ => []

/-- Why a file operation failed. The details of a damaged archive are not told apart. -/
inductive FileError
  | invalidPath (path : String) (fault : PathFault)
  | notFound (path : String)
  | notText (path : String)
  | pattern (pattern : String) (cause : Glob.Error)
  | linkWithoutBase (path : String)
  | host (path : String) (cause : HostFault)
  | archive
deriving DecidableEq, Repr

instance : Fault FileError where
  code
    | .invalidPath .. => "VFS_001"
    | .notFound .. => "VFS_002"
    | .notText .. => "VFS_003"
    | .pattern .. => "VFS_004"
    | .linkWithoutBase .. => "VFS_005"
    | .host .. => "VFS_006"
    | .archive => "VFS_007"
  category _ := "vfs"
  message
    | .invalidPath path fault => "invalid path '" ++ path ++ "': " ++ fault.message
    | .notFound path => "file not found: " ++ path
    | .notText path => "file '" ++ path ++ "' is not valid UTF-8"
    | .pattern pattern cause => "invalid glob pattern '" ++ pattern ++ "': " ++ cause.message
    | .linkWithoutBase path =>
      "cannot follow symlink '" ++ path ++ "' unless a host base path is configured"
    | .host path cause => "host filesystem error at " ++ path ++ ": " ++ cause.message
    | .archive => "archive error: <tar>"
  causes
    | .pattern _ cause => [cause.message]
    | .host _ cause => cause.message :: cause.causes
    | .archive => ["<tar>"]
    | _ => []

namespace Path

def normalize (path : String) : Except FileError String :=
  match normalize? path with
  | some key => .ok key
  | none => .error (.invalidPath path .escapesRoot)

/-- The normal form of a path that has to name a file, so not the root. -/
def normalizeFile (path : String) : Except FileError String :=
  match normalize? path with
  | some "" => .error (.invalidPath path .isRoot)
  | some key => .ok key
  | none => .error (.invalidPath path .escapesRoot)

end Path

/-- Access to files by their normalized paths; `paths` is sorted. A store may have ways of its own to
find out whether a file lies below a directory and how many files there are. -/
class FileStore (σ : Type) where
  lookup? : σ → String → Option Entry
  put : σ → String → Entry → σ
  drop : σ → String → σ
  paths : σ → List String
  hasBelow : σ → String → Bool := fun s dir => (paths s).any (Path.isBelow · dir)
  size : σ → Nat := fun s => (paths s).length

namespace FileStore

export Path (normalize normalizeFile)

variable {σ τ : Type} [FileStore σ] [FileStore τ]

def read (s : σ) (path : String) : Except FileError ByteArray := do
  let key ← normalizeFile path
  match lookup? s key with
  | some e => return e.contents
  | none => throw (.notFound key)

def readText (s : σ) (path : String) : Except FileError String := do
  let bytes ← read s path
  match Text.decode? bytes with
  | some text => return text
  | none => throw (.notText path)

/-- Puts an entry at a path that need not be in normal form. -/
def writeEntry (s : σ) (path : String) (e : Entry) : Except FileError σ := do
  return put s (← normalizeFile path) e

def write (s : σ) (path : String) (contents : ByteArray) : Except FileError σ :=
  writeEntry s path (.file contents)

def writeText (s : σ) (path text : String) : Except FileError σ := write s path (Text.encode text)

/-- The store without one file, and whether it had it. -/
def remove (s : σ) (path : String) : Except FileError (σ × Bool) := do
  let key ← normalizeFile path
  return (drop s key, (lookup? s key).isSome)

def filesUnder (s : σ) (dir : String) : Except FileError (List String) := do
  let key ← normalize dir
  return (paths s).filter (Path.isBelow · key)

/-- The store without the files below a directory, and their number. -/
def removeDir (s : σ) (dir : String) : Except FileError (σ × Nat) := do
  let files ← filesUnder s dir
  return (files.foldl drop s, files.length)

def isFile (s : σ) (path : String) : Bool :=
  match normalizeFile path with
  | .ok key => (lookup? s key).isSome
  | .error _ => false

def isDir (s : σ) (path : String) : Bool :=
  match normalize path with
  | .ok "" => true
  | .ok key => hasBelow s key
  | .error _ => false

def hasPath (s : σ) (path : String) : Bool := isFile s path || isDir s path

/-- The directories that hold some file, sorted. -/
def dirs (s : σ) : List String := Dict.sortKeys ((paths s).flatMap Path.ancestors)

/-- The files and directories that match a pattern, sorted. -/
def glob (s : σ) (pattern : String) : Except FileError (List String) :=
  match Glob.parse pattern with
  | .error cause => .error (.pattern pattern cause)
  | .ok compiled => .ok (Dict.sortKeys ((paths s ++ dirs s).filter compiled.matches))

def isEmpty (s : σ) : Bool := size s == 0

/-- Puts into `dst` the entry of each listed file of `src`, moved from directory `source` to
directory `target`, and counts them. -/
def copyFiles (src : σ) (source : String) (dst : τ) (target : String) : List String → τ × Nat
  | [] => (dst, 0)
  | file :: files =>
    match Path.below? file source, lookup? src file with
    | some rest, some e =>
      let (dst, copied) := copyFiles src source (put dst (Path.join target rest) e) target files
      (dst, copied + 1)
    | _, _ => copyFiles src source dst target files

/-- Copies the files below one directory to another one, and counts them. -/
def copyDir (src : σ) (source : String) (dst : τ) (target : String) :
    Except FileError (τ × Nat) := do
  let source ← normalize source
  let target ← normalize target
  return copyFiles src source dst target (← filesUnder src source)

end FileStore

end ResourceModels
