import ResourceModels.FileTree

/-!
A writable view of a tree that stays as it is. Writes go to an upper layer and a removal of a file
of the base leaves a mark, so any number of overlays can share one base.
-/

namespace ResourceModels

structure Overlay where
  base : FileTree
  upper : FileTree
  /-- The removed files of the base, sorted. -/
  removed : List String

namespace Overlay

def ofBase (base : FileTree) : Overlay := ⟨base, .empty, []⟩

def lookup? (o : Overlay) (path : String) : Option Entry :=
  match FileStore.lookup? o.upper path with
  | some e => some e
  | none => if path ∈ o.removed then none else FileStore.lookup? o.base path

instance : FileStore Overlay where
  lookup? := lookup?
  put o path e :=
    { o with upper := FileStore.put o.upper path e, removed := o.removed.filter (· ≠ path) }
  drop o path :=
    { o with
      upper := FileStore.drop o.upper path
      removed :=
        if (FileStore.lookup? o.base path).isSome then Dict.insertKey o.removed path
        else o.removed }
  paths o :=
    Dict.sortKeys ((FileStore.paths o.base).filter (· ∉ o.removed) ++ FileStore.paths o.upper)

/-- The files that are seen through the overlay, as a tree of their own. -/
def flatten (o : Overlay) : FileTree :=
  FileTree.ofEntries ((FileStore.paths o).filterMap fun path =>
    (o.lookup? path).map fun e => (path, e))

end Overlay

end ResourceModels
