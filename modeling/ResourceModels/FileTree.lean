import ResourceModels.FileStore

/-!
Files held in memory: a finite map from paths to entries, in order of path.
-/

namespace ResourceModels

@[ext]
structure FileTree where
  entries : Dict Entry
  sorted : Dict.Sorted entries
deriving DecidableEq

namespace FileTree

def empty : FileTree := ⟨[], .nil⟩

instance : EmptyCollection FileTree := ⟨empty⟩

instance : Inhabited FileTree := ⟨empty⟩

/-- Whether a file lies below a directory: the first path from that of the directory with a slash
on is looked at alone. -/
def hasBelow (t : FileTree) (dir : String) : Bool :=
  match t.entries.find? fun pair => !decide (pair.1 < dir ++ "/") with
  | some pair => Text.startsWith (dir ++ "/") pair.1
  | none => false

instance : FileStore FileTree where
  lookup? t path := t.entries.get? path
  put t path e := ⟨t.entries.insert path e, t.sorted.insert path e⟩
  drop t path := ⟨t.entries.erase path, t.sorted.erase path⟩
  paths t := t.entries.keys
  hasBelow := hasBelow
  size t := t.entries.length

/-- The tree of the given pairs, the later ones written over the earlier ones. -/
def ofEntries (pairs : List (String × Entry)) : FileTree :=
  ⟨Dict.ofList pairs, Dict.sorted_ofList pairs⟩

/-- Writes text files in order into an empty tree. -/
def ofTexts (files : List (String × String)) : Except FileError FileTree :=
  files.foldlM (fun t file => FileStore.writeText t file.1 file.2) empty

def writeLink (t : FileTree) (path target : String) : Except FileError FileTree :=
  FileStore.writeEntry t path (.link target)

/-- The files below a directory, by their paths from there. -/
def subtree (t : FileTree) (dir : String) : Except FileError FileTree := do
  let key ← Path.normalize dir
  return ofEntries (t.entries.filterMap fun pair =>
    (Path.below? pair.1 key).map fun rest => (rest, pair.2))

/-- The tree with the entries of another one put over its own. -/
def overwrite (t new : FileTree) : FileTree :=
  ⟨t.entries.insertAll new.entries, t.sorted.insertAll new.entries⟩

end FileTree

end ResourceModels
