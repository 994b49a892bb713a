import ResourceModels.Host.Transfer
import ResourceModels.Proofs.FileStore.Edits
import ResourceModels.Proofs.Overlay
import ResourceModels.Proofs.Path.Climbing
import ResourceModels.Proofs.Registry

/-!
# Keys of stores

Trees, overlays and registries are made from each other and changed in any order. Whatever is done
to them, all that they hold stands under paths in normal form: what comes from outside is brought to
that form, and what goes from one store to another keeps it.
-/

namespace ResourceModels

open FileStore (Change Edited PathsNormal paths)
open ResourceModels.Path (IsFilePath IsNormal)

/-- A tree, an overlay over one, or a registry of trees. -/
inductive Store
  | tree (t : FileTree)
  | overlay (o : Overlay)
  | registry (r : MemoryRegistry)

namespace Store

/-- Something is kept under a key: an entry, or the mark of a removed file. -/
def HasKey : Store → String → Prop
  | .tree t, key => key ∈ paths t
  | .overlay o, key => key ∈ paths o.base ∨ key ∈ paths o.upper ∨ key ∈ o.removed
  | .registry r, key => ∃ language t, r.models language = some t ∧ key ∈ paths t

def KeysNormal (s : Store) : Prop := ∀ key, s.HasKey key → IsFilePath key

/-- The store after a change. A registry is changed by registrations alone. -/
def changed (c : Change) : Store → Store
  | .tree t => .tree (FileStore.apply t c).1
  | .overlay o => .overlay (FileStore.apply o c).1
  | .registry r => .registry r

/-- The store with the files below a directory of another one. -/
def withCopied (dir target : String) (source s : Store) : Store :=
  match source with
  | .tree t => s.changed (.copyDir t dir target)
  | .overlay o => s.changed (.copyDir o dir target)
  | .registry _ => s

def made : Except FileError FileTree → List Store
  | .ok t => [.tree t]
  | .error _ => []

def linked (path target : String) : Store → Store
  | .tree t => .tree ((t.writeLink path target).toOption.getD t)
  | s => s

def subtrees (dir : String) : Store → List Store
  | .tree t => made (t.subtree dir)
  | _ => []

def overlays : Store → List Store
  | .tree t => [.overlay (.ofBase t)]
  | _ => []

def flattened : Store → List Store
  | .overlay o => [.tree o.flatten]
  | _ => []

def registered (language : Language) : Store → List Store
  | .registry r => (r.models language).toList.map .tree
  | _ => []

def withModels (language : Language) (models s : Store) : Store :=
  match models, s with
  | .tree t, .registry r => .registry (r.add language t).1
  | _, s => s

/-- What can be done when some stores are there, which are told apart by their positions. -/
inductive Operation
  | emptyTree
  | treeOf (files : List (String × String))
  | load (h : Host) (root : String)
  | emptyRegistry
  | subtree (store : Nat) (dir : String)
  | overlay (store : Nat)
  | flatten (store : Nat)
  | registered (store : Nat) (language : Language)
  | write (store : Nat) (path : String) (contents : ByteArray)
  | writeEntry (store : Nat) (path : String) (e : Entry)
  | writeLink (store : Nat) (path target : String)
  | remove (store : Nat) (path : String)
  | removeDir (store : Nat) (dir : String)
  | unpack (store : Nat) (options : Archive.UnpackOptions) (bytes : Archive.Bytes)
  | copyDir (source : Nat) (dir : String) (store : Nat) (target : String)
  | addModels (store : Nat) (language : Language) (models : Nat)

/-- The stores after an operation. Those that it makes come last; one that fails makes none. -/
def step (stores : List Store) : Operation → List Store
  | .emptyTree => stores ++ [.tree ∅]
  | .treeOf files => stores ++ made (FileTree.ofTexts files)
  | .load h root => stores ++ made (Host.load h root)
  | .emptyRegistry => stores ++ [.registry ∅]
  | .subtree i dir => stores ++ stores[i]?.toList.flatMap (subtrees dir)
  | .overlay i => stores ++ stores[i]?.toList.flatMap overlays
  | .flatten i => stores ++ stores[i]?.toList.flatMap flattened
  | .registered i language => stores ++ stores[i]?.toList.flatMap (registered language)
  | .write i path contents => stores.modify i (changed (.write path contents))
  | .writeEntry i path e => stores.modify i (changed (.writeEntry path e))
  | .writeLink i path target => stores.modify i (linked path target)
  | .remove i path => stores.modify i (changed (.remove path))
  | .removeDir i dir => stores.modify i (changed (.removeDir dir))
  | .unpack i options bytes => stores.modify i (changed (.unpack options bytes))
  | .copyDir source dir i target =>
    stores.modify i fun s => stores[source]?.elim s fun source => withCopied dir target source s
  | .addModels i language models =>
    stores.modify i fun s => stores[models]?.elim s fun models => withModels language models s

def run (stores : List Store) (operations : List Operation) : List Store :=
  operations.foldl step stores

theorem keysNormal_tree {t : FileTree} : (Store.tree t).KeysNormal ↔ PathsNormal t := Iff.rfl

theorem keysNormal_registry {r : MemoryRegistry} : (Store.registry r).KeysNormal ↔
    ∀ language t, r.models language = some t → PathsNormal t := by
  constructor
  · exact fun h language t ht key hkey => h key ⟨language, t, ht, hkey⟩
  · rintro h key ⟨language, t, ht, hkey⟩
    exact h language t ht key hkey

section

variable {o : Overlay}

theorem keysNormal_overlay : (Store.overlay o).KeysNormal ↔
    PathsNormal o.base ∧ PathsNormal o.upper ∧ ∀ key ∈ o.removed, IsFilePath key := by
  constructor
  · exact fun h => ⟨fun key hkey => h key (.inl hkey), fun key hkey => h key (.inr (.inl hkey)),
      fun key hkey => h key (.inr (.inr hkey))⟩
  · rintro ⟨hbase, hupper, hremoved⟩ key (hkey | hkey | hkey)
    · exact hbase key hkey
    · exact hupper key hkey
    · exact hremoved key hkey

theorem keysNormal_put {key : String} (hkey : IsFilePath key) (e : Entry)
    (h : (Store.overlay o).KeysNormal) : (Store.overlay (FileStore.put o key e)).KeysNormal := by
  obtain ⟨hbase, hupper, hremoved⟩ := keysNormal_overlay.mp h
  refine keysNormal_overlay.mpr ⟨hbase, FileStore.pathsNormal_put hupper hkey e, fun other hother => ?_⟩
  exact hremoved other (List.mem_of_mem_filter hother)

/-- Only files of the base are marked as removed. -/
theorem keysNormal_drop (key : String) (h : (Store.overlay o).KeysNormal) :
    (Store.overlay (FileStore.drop o key)).KeysNormal := by
  obtain ⟨hbase, hupper, hremoved⟩ := keysNormal_overlay.mp h
  refine keysNormal_overlay.mpr ⟨hbase, FileStore.pathsNormal_drop hupper key, fun other hother => ?_⟩
  change other ∈ if (FileStore.lookup? o.base key).isSome then Dict.insertKey o.removed key
    else o.removed at hother
  split at hother
  · next hfound =>
    rcases Dict.mem_insertKey.mp hother with rfl | hother
    · exact hbase other (FileTree.mem_paths.mpr hfound)
    · exact hremoved other hother
  · exact hremoved other hother

theorem pathsNormal_of_overlay (h : (Store.overlay o).KeysNormal) : PathsNormal o := by
  obtain ⟨hbase, hupper, -⟩ := keysNormal_overlay.mp h
  intro key hkey
  rcases List.mem_append.mp (Dict.mem_sortKeys.mp hkey) with hkey | hkey
  · exact hbase key (List.mem_of_mem_filter hkey)
  · exact hupper key hkey

theorem pathsNormal_flatten (h : (Store.overlay o).KeysNormal) : PathsNormal o.flatten := by
  intro key hkey
  rw [FileTree.mem_paths, Overlay.lookup?_flatten, ← Overlay.mem_paths] at hkey
  exact pathsNormal_of_overlay h key hkey

end

variable {s source models : Store}

theorem changed_keysNormal {c : Change} (hc : c.FromNormal) (h : s.KeysNormal) :
    (s.changed c).KeysNormal := by
  cases s with
  | registry r => exact h
  | tree t =>
    exact FileStore.apply_keeps (P := PathsNormal) (Q := True)
      (fun _ _ e hkey hs => FileStore.pathsNormal_put hs (hkey trivial) e)
      (fun _ key hs => FileStore.pathsNormal_drop hs key) (fun _ => hc) h
  | overlay o =>
    exact FileStore.apply_keeps (P := fun o : Overlay => (Store.overlay o).KeysNormal) (Q := True)
      (fun _ _ e hkey hs => keysNormal_put (hkey trivial) e hs)
      (fun _ key hs => keysNormal_drop key hs) (fun _ => hc) h

theorem withCopied_keysNormal (dir target : String) (hsource : source.KeysNormal)
    (h : s.KeysNormal) : (withCopied dir target source s).KeysNormal := by
  cases source with
  | tree t => exact changed_keysNormal hsource h
  | overlay o => exact changed_keysNormal (pathsNormal_of_overlay hsource) h
  | registry r => exact h

theorem linked_keysNormal (path target : String) (h : s.KeysNormal) :
    (s.linked path target).KeysNormal := by
  cases s with
  | tree t =>
    change PathsNormal ((t.writeLink path target).toOption.getD t)
    cases hlink : t.writeLink path target with
    | error cause => exact h
    | ok t' => exact (Edited.start.write hlink).pathsNormal h
  | overlay o => exact h
  | registry r => exact h

theorem writeAll_edited (t : FileTree) (entries : List (String × Entry)) :
    Edited t (MemoryRegistry.writeAll t entries).1 := by
  induction entries generalizing t with
  | nil => exact .start
  | cons pair rest ih =>
    simp only [MemoryRegistry.writeAll]
    split
    · next hwrite => exact (Edited.start.write hwrite).trans (ih _)
    · exact .start

/-- A registration that fails leaves what it has written. -/
theorem withModels_keysNormal (language : Language) (h : s.KeysNormal) :
    (withModels language models s).KeysNormal := by
  unfold withModels
  split
  · next t r =>
    rw [keysNormal_registry] at h ⊢
    intro other found hfound
    change (if other = language then
      some (MemoryRegistry.writeAll ((r.models language).getD ∅) t.entries).1
      else r.models other) = some found at hfound
    split at hfound
    · cases hfound
      refine (writeAll_edited _ t.entries).pathsNormal ?_
      cases hmodels : r.models language with
      | none => exact FileTree.pathsNormal_empty
      | some t => exact h language t hmodels
    · exact h other found hfound
  · exact h

theorem made_keysNormal {x : Except FileError FileTree} (h : ∀ t, x = .ok t → PathsNormal t) :
    ∀ s ∈ made x, s.KeysNormal := by
  intro s hs
  cases x with
  | error cause => cases hs
  | ok t =>
    rw [List.mem_singleton.mp hs]
    exact h t rfl

theorem pathsNormal_ofTexts {files : List (String × String)} {t : FileTree}
    (h : FileTree.ofTexts files = .ok t) : PathsNormal t :=
  (Edited.foldlM (fun _ _ _ hwrite => Edited.start.write hwrite) h).pathsNormal
    FileTree.pathsNormal_empty

theorem takeUp_edited {t t' : FileTree} {m : Host.Met} (h : Host.takeUp t m = .ok t') :
    Edited t t' := by
  unfold Host.takeUp at h
  split at h
  · cases h
    exact .start
  · split at h
    · cases h
      exact .start
    · exact Edited.start.write h
    · exact Edited.start.write h

theorem pathsNormal_load {h : Host} {root : String} {t : FileTree} (ht : Host.load h root = .ok t) :
    PathsNormal t := by
  simp only [Host.load, Outcome.bind_eq_ok] at ht
  obtain ⟨all, _, ht⟩ := ht
  exact (Edited.foldlM (fun _ _ _ => takeUp_edited) ht).pathsNormal FileTree.pathsNormal_empty

theorem pathsNormal_subtree {t t' : FileTree} {dir : String} (ht : PathsNormal t)
    (h : t.subtree dir = .ok t') : PathsNormal t' := by
  simp only [FileTree.subtree, Outcome.bind_eq_ok, Outcome.pure_eq_ok] at h
  obtain ⟨base, _, rfl⟩ := h
  intro key hkey
  obtain ⟨⟨_, e⟩, hpair, rfl⟩ := List.mem_map.mp (Dict.mem_keys_ofList.mp hkey)
  obtain ⟨⟨path, _⟩, hpath, hbelow⟩ := List.mem_filterMap.mp hpair
  obtain ⟨rest, hrest, hpair⟩ := Option.map_eq_some_iff.mp hbelow
  cases hpair
  exact Path.isFilePath_below? (ht path (List.mem_map_of_mem hpath)) hrest

theorem subtrees_keysNormal (dir : String) (h : s.KeysNormal) :
    ∀ derived ∈ s.subtrees dir, derived.KeysNormal := by
  cases s with
  | tree t => exact made_keysNormal fun _ => pathsNormal_subtree h
  | overlay o => exact fun _ hderived => absurd hderived List.not_mem_nil
  | registry r => exact fun _ hderived => absurd hderived List.not_mem_nil

theorem overlays_keysNormal (h : s.KeysNormal) : ∀ derived ∈ s.overlays, derived.KeysNormal := by
  intro derived hderived
  cases s with
  | tree t =>
    rw [List.mem_singleton.mp hderived, keysNormal_overlay]
    exact ⟨h, FileTree.pathsNormal_empty, fun key hkey => absurd hkey List.not_mem_nil⟩
  | overlay o => cases hderived
  | registry r => cases hderived

theorem flattened_keysNormal (h : s.KeysNormal) : ∀ derived ∈ s.flattened, derived.KeysNormal := by
  intro derived hderived
  cases s with
  | tree t => cases hderived
  | overlay o =>
    rw [List.mem_singleton.mp hderived]
    exact pathsNormal_flatten h
  | registry r => cases hderived

theorem registered_keysNormal (language : Language) (h : s.KeysNormal) :
    ∀ derived ∈ s.registered language, derived.KeysNormal := by
  intro derived hderived
  cases s with
  | tree t => cases hderived
  | overlay o => cases hderived
  | registry r =>
    obtain ⟨t, ht, rfl⟩ := List.mem_map.mp hderived
    exact keysNormal_registry.mp h language t (Option.mem_toList.mp ht)

theorem mem_modify {α : Type} {xs : List α} {i : Nat} {f : α → α} {x : α} (h : x ∈ xs.modify i f) :
    x ∈ xs ∨ ∃ y ∈ xs, f y = x := by
  obtain ⟨j, hj⟩ := List.mem_iff_getElem?.mp h
  rw [List.getElem?_modify] at hj
  obtain ⟨y, hy, hfy⟩ := Option.map_eq_some_iff.mp hj
  split at hfy
  · exact .inr ⟨y, List.mem_of_getElem? hy, hfy⟩
  · exact .inl (hfy ▸ List.mem_of_getElem? hy)

section

variable {stores : List Store} (h : ∀ s ∈ stores, s.KeysNormal)

include h

theorem append_keysNormal {new : List Store} (hnew : ∀ s ∈ new, s.KeysNormal) :
    ∀ s ∈ stores ++ new, s.KeysNormal := by
  intro s hs
  rcases List.mem_append.mp hs with hs | hs
  · exact h s hs
  · exact hnew s hs

theorem derive_keysNormal (i : Nat) {f : Store → List Store}
    (hf : ∀ s : Store, s.KeysNormal → ∀ derived ∈ f s, derived.KeysNormal) :
    ∀ s ∈ stores ++ stores[i]?.toList.flatMap f, s.KeysNormal := by
  refine append_keysNormal h fun derived hderived => ?_
  obtain ⟨s, hs, hderived⟩ := List.mem_flatMap.mp hderived
  exact hf s (h s (List.mem_of_getElem? (Option.mem_toList.mp hs))) derived hderived

theorem modify_keysNormal (i : Nat) {f : Store → Store}
    (hf : ∀ s : Store, s.KeysNormal → (f s).KeysNormal) :
    ∀ s ∈ stores.modify i f, s.KeysNormal := by
  intro s hs
  rcases mem_modify hs with hs | ⟨old, hold, rfl⟩
  · exact h s hs
  · exact hf old (h old hold)

theorem step_keysNormal (operation : Operation) : ∀ s ∈ step stores operation, s.KeysNormal := by
  cases operation with
  | emptyTree =>
    refine append_keysNormal h fun s hs => ?_
    rw [List.mem_singleton.mp hs]
    exact FileTree.pathsNormal_empty
  | treeOf files => exact append_keysNormal h (made_keysNormal fun _ => pathsNormal_ofTexts)
  | load machine root => exact append_keysNormal h (made_keysNormal fun _ => pathsNormal_load)
  | emptyRegistry =>
    refine append_keysNormal h fun s hs => ?_
    rw [List.mem_singleton.mp hs, keysNormal_registry]
    exact fun language t ht => nomatch ht
  | subtree i dir => exact derive_keysNormal h i fun s => subtrees_keysNormal dir
  | overlay i => exact derive_keysNormal h i fun s => overlays_keysNormal
  | flatten i => exact derive_keysNormal h i fun s => flattened_keysNormal
  | registered i language => exact derive_keysNormal h i fun s => registered_keysNormal language
  | write i path contents => exact modify_keysNormal h i fun s => changed_keysNormal trivial
  | writeEntry i path e => exact modify_keysNormal h i fun s => changed_keysNormal trivial
  | writeLink i path target => exact modify_keysNormal h i fun s => linked_keysNormal path target
  | remove i path => exact modify_keysNormal h i fun s => changed_keysNormal trivial
  | removeDir i dir => exact modify_keysNormal h i fun s => changed_keysNormal trivial
  | unpack i options bytes => exact modify_keysNormal h i fun s => changed_keysNormal trivial
  | copyDir source dir i target =>
    refine modify_keysNormal h i fun s hs => ?_
    cases hsource : stores[source]? with
    | none => exact hs
    | some store => exact withCopied_keysNormal dir target (h store (List.mem_of_getElem? hsource)) hs
  | addModels i language models =>
    refine modify_keysNormal h i fun s hs => ?_
    cases hmodels : stores[models]? with
    | none => exact hs
    | some store => exact withModels_keysNormal language hs

theorem run_keysNormal (operations : List Operation) :
    ∀ s ∈ run stores operations, s.KeysNormal := by
  induction operations generalizing stores with
  | nil => exact h
  | cons operation rest ih => exact ih (step_keysNormal h operation)

end

open ResourceModels.Path (normalize segments descents climbs)

/-- Whatever is done, everything is kept under a path that its normal form leaves as it is. Normal
forms are found in one go, part by part, and unless a path climbs above the root. -/
theorem keys_normal :
    (∀ operations, ∀ s ∈ run [] operations, ∀ key, s.HasKey key →
      key ≠ "" ∧ normalize key = .ok key) ∧
    (∀ path, (normalize path >>= normalize) = normalize path) ∧
    (∀ path key rest, normalize path = .ok key →
      (normalize (key ++ "/" ++ rest)).mapError (FileError.quoting (path ++ "/" ++ rest)) =
        normalize (path ++ "/" ++ rest)) ∧
    (∀ path, (∃ cause, normalize path = .error cause) ↔
      ∃ start, start <+: segments path ∧ descents start < climbs start) := by
  refine ⟨fun operations s hs key hkey => ?_, Path.normalize_idempotent,
    fun path key rest h => Path.normalize_append_slash h rest, fun path => ?_⟩
  · have hnone : ∀ s ∈ ([] : List Store), s.KeysNormal := fun _ hs => absurd hs List.not_mem_nil
    obtain ⟨hnormal, hne⟩ := run_keysNormal hnone operations s hs key hkey
    exact ⟨hne, Path.normalize_eq_ok.mpr hnormal⟩
  · rw [Path.normalize_eq_error_iff, Path.normalize?_eq_none_iff]

/-- An overlay is written to, its base copied below a directory of a tree, and both registered. -/
def overlayHistory : List Operation :=
  [.treeOf [("./a//b.txt", "b"), ("a/../c\\d", "d")], .overlay 0, .remove 1 "c/./d",
    .write 1 "/e/../f" .empty, .copyDir 0 "a/" 0 "x/../y", .flatten 1, .emptyRegistry,
    .addModels 3 .go 2, .writeLink 0 "../out" "c"]

theorem keys_normal_overlayHistory :
    (∃ r, (run [] overlayHistory)[3]? = some (.registry r) ∧ (Store.registry r).HasKey "f") ∧
    (∀ s ∈ run [] overlayHistory, ∀ key, s.HasKey key → key ≠ "" ∧ normalize key = .ok key) ∧
    (normalize "a/./b" = .ok "a/b" ∧
      (normalize ("a/b" ++ "/" ++ "../../..")).mapError
          (FileError.quoting ("a/./b" ++ "/" ++ "../../..")) =
        normalize ("a/./b" ++ "/" ++ "../../..")) := by
  refine ⟨⟨_, rfl, .go, _, rfl, ?_⟩, keys_normal.1 overlayHistory, by decide, ?_⟩
  · decide
  · exact keys_normal.2.2.1 "a/./b" "a/b" "../../.." (by decide)

end Store

end ResourceModels
