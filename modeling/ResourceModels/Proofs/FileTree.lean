import ResourceModels.Proofs.FileStore.Invariant
import ResourceModels.Proofs.Outcome
import ResourceModels.Proofs.Path

/-!
# Trees as functions from paths

A tree is fixed by what stands at each path. After some text files are written in order, each path
holds the last text that was written there, or else what it held before.
-/

namespace ResourceModels

open FileStore (lookup? put drop paths)

namespace FileTree

variable {t t' : FileTree}

theorem lookup?_put (t : FileTree) (key path : String) (e : Entry) :
    lookup? (put t key e) path = if key = path then some e else lookup? t path :=
  Dict.get?_insert t.entries key path e

theorem lookup?_drop (t : FileTree) (key path : String) :
    lookup? (drop t key) path = if key = path then none else lookup? t path :=
  Dict.get?_erase t.entries key path

theorem mem_paths {path : String} : path ∈ paths t ↔ (lookup? t path).isSome :=
  Dict.isSome_get?_iff.symm

theorem paths_pairwise (t : FileTree) : (paths t).Pairwise (· < ·) := t.sorted.keys_pairwise

/-- The first path from a text on is not beyond any path from there on. -/
theorem le_of_find? {entries : Dict Entry} (h : Dict.Sorted entries) {low : String}
    {first : String × Entry} (hfirst : entries.find? (fun p => !decide (p.1 < low)) = some first)
    {pair : String × Entry} (hpair : pair ∈ entries) (hlow : ¬pair.1 < low) :
    ¬pair.1 < first.1 := by
  obtain ⟨_, before, after, rfl, hbefore⟩ := List.find?_eq_some_iff_append.mp hfirst
  rcases List.mem_append.mp hpair with hp | hp
  · exact absurd (hbefore pair hp) (by simpa using hlow)
  · rcases List.mem_cons.mp hp with rfl | hp
    · exact lt_irrefl _
    · have hafter := (List.pairwise_append.mp h).2.1
      exact lt_asymm ((List.pairwise_cons.mp hafter).1 pair hp)

theorem hasBelow_eq (t : FileTree) {dir : String} (hdir : dir ≠ "") :
    hasBelow t dir = (paths t).any (Path.isBelow · dir) := by
  rw [Bool.eq_iff_iff, List.any_eq_true]
  unfold hasBelow
  constructor
  · intro h
    split at h
    · next pair hfind =>
      refine ⟨pair.1, List.mem_map_of_mem (List.mem_of_find?_eq_some hfind), ?_⟩
      exact (Path.isBelow_iff hdir).mpr h
    · cases h
  · rintro ⟨path, hpath, hbelow⟩
    obtain ⟨pair, hpair, rfl⟩ := List.mem_map.mp hpath
    obtain ⟨rest, hrest⟩ := Text.startsWith_iff.mp ((Path.isBelow_iff hdir).mp hbelow)
    -- the first path from `dir/` on lies between that text and a path that begins with it
    have hlow : ¬pair.1 < dir ++ "/" := by
      rw [String.lt_iff_toList_lt, ← hrest]
      exact Text.not_append_lt _ rest
    cases hfind : t.entries.find? fun pair => !decide (pair.1 < dir ++ "/") with
    | none =>
      have hnone := List.find?_eq_none.mp hfind pair hpair
      simp only [Bool.not_eq_true', decide_eq_false_iff_not, not_not] at hnone
      exact absurd hnone hlow
    | some first =>
      have hfirst : ¬first.1 < dir ++ "/" := by simpa using List.find?_some hfind
      have hhigh := le_of_find? t.sorted hfind hpair hlow
      rw [String.lt_iff_toList_lt] at hfirst hhigh
      rw [← hrest] at hhigh
      exact Text.startsWith_iff.mpr (Text.prefix_of_between rest hfirst hhigh)

theorem ext_lookup? (h : ∀ path, lookup? t path = lookup? t' path) : t = t' :=
  FileTree.ext (t.sorted.ext t'.sorted h)

instance : FileStore.Lawful FileTree where
  lookup?_put := lookup?_put
  lookup?_drop := lookup?_drop
  mem_paths _ _ := mem_paths
  paths_pairwise := paths_pairwise
  hasBelow_eq t _ := hasBelow_eq t
  size_eq _ := (List.length_map _).symm

end FileTree

section

variable {α β : Type}

/-- The given things by the normal forms of their paths. -/
def keyed (files : List (String × α)) : List (String × α) :=
  files.filterMap fun file => (Path.normalizeFile file.1).toOption.map fun key => (key, file.2)

/-- What is at each path once the given things are put there in order. -/
def placed (files : List (String × α)) : Dict α := Dict.ofList (keyed files)

theorem keyed_cons {file : String × α} {key : String} (h : Path.normalizeFile file.1 = .ok key)
    (rest : List (String × α)) : keyed (file :: rest) = (key, file.2) :: keyed rest := by
  simp [keyed, h, Except.toOption]

theorem keyed_map (f : α → β) (files : List (String × α)) :
    keyed (files.map fun file => (file.1, f file.2)) =
      (keyed files).map fun file => (file.1, f file.2) := by
  induction files with
  | nil => rfl
  | cons file rest ih =>
    simp only [keyed] at ih
    simp only [keyed, List.map_cons, List.filterMap_cons, ih]
    cases Path.normalizeFile file.1 <;> rfl

theorem mem_keyed {files : List (String × α)} {key : String} {value : α} :
    (key, value) ∈ keyed files ↔
      ∃ file ∈ files, Path.normalizeFile file.1 = .ok key ∧ file.2 = value := by
  simp only [keyed, List.mem_filterMap]
  refine exists_congr fun file => and_congr_right fun _ => ?_
  cases Path.normalizeFile file.1 <;> simp [Except.toOption]

theorem get?_placed_cons {file : String × α} {key : String}
    (h : Path.normalizeFile file.1 = .ok key) (rest : List (String × α)) (path : String) :
    (placed (file :: rest)).get? path =
      ((placed rest).get? path).or (if key = path then some file.2 else none) := by
  simp only [placed, keyed_cons h, Dict.get?_ofList, List.reverse_cons, List.find?_append,
    Option.map_or]
  by_cases hk : key = path <;> simp [hk]

theorem get?_placed_append (files more : List (String × α)) (path : String) :
    (placed (files ++ more)).get? path =
      ((placed more).get? path).or ((placed files).get? path) := by
  simp only [placed, keyed, List.filterMap_append, Dict.get?_ofList_append]

theorem get?_placed_map (f : α → β) (files : List (String × α)) (path : String) :
    (placed (files.map fun file => (file.1, f file.2))).get? path =
      ((placed files).get? path).map f := by
  simp only [placed, keyed_map, Dict.get?_ofList, ← List.map_reverse, List.find?_map,
    Option.map_map, Function.comp_def]

theorem exists_of_get?_placed {files : List (String × α)} {path : String} {value : α}
    (h : (placed files).get? path = some value) :
    ∃ file ∈ files, Path.normalizeFile file.1 = .ok path ∧ file.2 = value := by
  rw [placed, Dict.get?_ofList] at h
  obtain ⟨⟨key, v⟩, hfind, rfl⟩ := Option.map_eq_some_iff.mp h
  have hkey := List.find?_some hfind
  have hmem := List.mem_reverse.mp (List.mem_of_find?_eq_some hfind)
  simp only [decide_eq_true_eq] at hkey
  subst hkey
  exact mem_keyed.mp hmem

/-- What is put at a path of its own stands there. -/
theorem get?_placed_of_nodup {files : List (String × α)}
    (h : (files.map fun file => (Path.normalizeFile file.1).toOption).Nodup) {file : String × α}
    (hfile : file ∈ files) {key : String} (hkey : Path.normalizeFile file.1 = .ok key) :
    (placed files).get? key = some file.2 := by
  have hkeys : (keyed files).map (·.1) =
      (files.map fun file => (Path.normalizeFile file.1).toOption).filterMap id := by
    rw [keyed, List.map_filterMap, List.filterMap_map]
    refine List.filterMap_congr fun file _ => ?_
    simp only [Option.map_map, Function.comp_def, Option.map_id', id_eq]
  have hnodup : ((keyed files).map (·.1)).Nodup := by
    rw [hkeys]
    exact h.filterMap fun own other key hown hother =>
      (Option.mem_def.mp hown).trans (Option.mem_def.mp hother).symm
  exact Dict.get?_ofList_of_mem hnodup (mem_keyed.mpr ⟨file, hfile, hkey, rfl⟩)

end

namespace FileTree

def textEntry (text : String) : Entry := .file (Text.encode text)

def writeTexts (t : FileTree) (files : List (String × String)) : Except FileError FileTree :=
  files.foldlM (fun t file => FileStore.writeText t file.1 file.2) t

theorem writeTexts_cons {t t' : FileTree} {file : String × String}
    {files : List (String × String)} :
    t.writeTexts (file :: files) = .ok t' ↔ ∃ key, Path.normalizeFile file.1 = .ok key ∧
      (put t key (textEntry file.2)).writeTexts files = .ok t' := by
  simp only [writeTexts, List.foldlM_cons, FileStore.writeText, FileStore.write,
    FileStore.writeEntry]
  cases Path.normalizeFile file.1 with
  | error fault => simp [bind, Except.bind]
  | ok key => simp [bind, Except.bind, pure, Except.pure, textEntry]

theorem lookup?_writeTexts {t t' : FileTree} {files : List (String × String)}
    (h : t.writeTexts files = .ok t') (path : String) :
    lookup? t' path = (((placed files).get? path).map textEntry).or (lookup? t path) := by
  induction files generalizing t with
  | nil => cases h; rfl
  | cons file rest ih =>
    obtain ⟨key, hkey, hrest⟩ := writeTexts_cons.mp h
    rw [ih hrest, get?_placed_cons hkey, lookup?_put]
    cases (placed rest).get? path with
    | some text => rfl
    | none => by_cases hk : key = path <;> simp [hk]

theorem writeTexts_append {t t' : FileTree} {files more : List (String × String)} :
    t.writeTexts (files ++ more) = .ok t' ↔
      ∃ t₁, t.writeTexts files = .ok t₁ ∧ t₁.writeTexts more = .ok t' := by
  rw [writeTexts, List.foldlM_append, Outcome.bind_eq_ok]
  rfl

theorem exists_normalizeFile_of_writeTexts {t t' : FileTree} {files : List (String × String)}
    (h : t.writeTexts files = .ok t') :
    ∀ file ∈ files, ∃ key, Path.normalizeFile file.1 = .ok key := by
  induction files generalizing t with
  | nil => exact fun _ hfile => absurd hfile List.not_mem_nil
  | cons file rest ih =>
    obtain ⟨key, hkey, hrest⟩ := writeTexts_cons.mp h
    exact List.forall_mem_cons.mpr ⟨⟨key, hkey⟩, ih hrest⟩

/-- Texts can be written if every path is the path of a file. -/
theorem exists_writeTexts {files : List (String × String)}
    (h : ∀ file ∈ files, ∃ key, Path.normalizeFile file.1 = .ok key) (t : FileTree) :
    ∃ t', t.writeTexts files = .ok t' := by
  induction files generalizing t with
  | nil => exact ⟨t, rfl⟩
  | cons file rest ih =>
    obtain ⟨key, hkey⟩ := h file List.mem_cons_self
    obtain ⟨t', ht'⟩ := ih (fun f hf => h f (List.mem_cons_of_mem _ hf))
      (put t key (textEntry file.2))
    exact ⟨t', writeTexts_cons.mpr ⟨key, hkey, ht'⟩⟩

theorem mem_paths_writeTexts {t t' : FileTree} {texts : List (String × String)}
    (h : t.writeTexts texts = .ok t') (path : String) : path ∈ paths t' ↔
      path ∈ paths t ∨ ∃ text ∈ texts, Path.normalizeFile text.1 = .ok path := by
  have hplaced : ((placed texts).get? path).isSome ↔
      ∃ text ∈ texts, Path.normalizeFile text.1 = .ok path := by
    rw [placed, Dict.isSome_get?_iff, Dict.mem_keys_ofList, List.mem_map]
    constructor
    · rintro ⟨⟨key, value⟩, hkeyed, rfl⟩
      obtain ⟨text, htext, hkey, _⟩ := mem_keyed.mp hkeyed
      exact ⟨text, htext, hkey⟩
    · rintro ⟨text, htext, hkey⟩
      exact ⟨(path, text.2), mem_keyed.mpr ⟨text, htext, hkey, rfl⟩, rfl⟩
  rw [mem_paths, lookup?_writeTexts h, mem_paths, ← hplaced, or_comm]
  cases (placed texts).get? path <;> simp

/-- Every written file has a path at which something stands. -/
theorem isSome_lookup?_of_writeTexts {t t' : FileTree} {files : List (String × String)}
    (h : t.writeTexts files = .ok t') {file : String × String} (hfile : file ∈ files) :
    ∃ path, Path.normalizeFile file.1 = .ok path ∧ (lookup? t' path).isSome := by
  obtain ⟨path, hpath⟩ := exists_normalizeFile_of_writeTexts h file hfile
  exact ⟨path, hpath, mem_paths.mp ((mem_paths_writeTexts h path).mpr (.inr ⟨file, hfile, hpath⟩))⟩

/-- Texts that are written to paths of their own are read there again. -/
theorem readText_writeTexts {t t' : FileTree} {files : List (String × String)}
    (h : t.writeTexts files = .ok t') (hpaths : ∀ file ∈ files, Path.IsFilePath file.1)
    (hnodup : (files.map (·.1)).Nodup) :
    ∀ file ∈ files, FileStore.readText t' file.1 = .ok file.2 := by
  intro file hfile
  have hkeys : files.map (fun file => (Path.normalizeFile file.1).toOption) =
      (files.map (·.1)).map some := by
    rw [List.map_map]
    refine List.map_congr_left fun file hfile => ?_
    rw [Path.normalizeFile_of_isFilePath (hpaths file hfile)]
    rfl
  have hplaced := get?_placed_of_nodup (hkeys ▸ hnodup.map fun _ _ => Option.some.inj) hfile
    (Path.normalizeFile_of_isFilePath (hpaths file hfile))
  refine (FileStore.readText_eq_ok (hpaths file hfile)).mpr
    ⟨textEntry file.2, ?_, Text.decode?_encode file.2⟩
  rw [lookup?_writeTexts h, hplaced]
  rfl

/-- What stands in a tree of written files is one of them. -/
theorem exists_file_of_lookup? {t : FileTree} {files : List (String × String)}
    (h : (∅ : FileTree).writeTexts files = .ok t) {path : String} {entry : Entry}
    (hentry : lookup? t path = some entry) :
    ∃ file ∈ files, Path.normalizeFile file.1 = .ok path ∧ entry = textEntry file.2 := by
  have hnone : lookup? (∅ : FileTree) path = none := rfl
  rw [lookup?_writeTexts h, hnone, Option.or_none] at hentry
  obtain ⟨text, htext, rfl⟩ := Option.map_eq_some_iff.mp hentry
  obtain ⟨file, hfile, hpath, rfl⟩ := exists_of_get?_placed htext
  exact ⟨file, hfile, hpath, rfl⟩

end FileTree

end ResourceModels
