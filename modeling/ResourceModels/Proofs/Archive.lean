import ResourceModels.Proofs.Archive.Members
import ResourceModels.Proofs.FileStore.Invariant
import ResourceModels.Proofs.Overlay

/-!
# Stores packed and unpacked

Packing a store below a directory and unpacking the archive with the directory taken off the names
writes the files of the store over those of the destination. Directories of the archive leave
nothing behind, and a bound on the size of files cuts each file for itself.
-/

namespace ResourceModels.Archive

open FileStore (lookup? put paths size Lawful PathsNormal)
open ResourceModels.Path (IsNormal IsFilePath join)

variable {σ τ : Type} [FileStore σ] [FileStore τ]

/-- A file with no more than its first `cap` bytes. -/
def truncated (cap : Nat) (e : Entry) : Entry :=
  { e with contents := e.contents.extract 0 (min e.contents.size cap) }

/-- What is taken off the front of names below a directory. -/
def below (start : String) : String := if start = "" then "" else start ++ "/"

/-- What the format asks of a stored file that goes below a directory. -/
structure Packable (start path : String) (e : Entry) : Prop where
  clean : '\x00' ∉ path.toList
  nameSize : IsCounted ((nameBytes (join start path)).length + 1)
  noLink : e.symlink = none
  mode : e.mode < 8 ^ 7
  size : IsCounted e.contents.size

/-- What the format asks of the directory. -/
structure PackableBelow (start : String) : Prop where
  normal : IsNormal start
  clean : '\x00' ∉ start.toList
  nameSize : IsCounted ((nameBytes (start ++ "/")).length + 1)

def fileMembers (start : String) (s : σ) (path : String) : List Member :=
  (lookup? s path).toList.map fun e => file (join start path) e.mode e.contents

/-- All that is written of a store. -/
def storedMembers (start : String) (s : σ) : List Member :=
  directories start s ++ (paths s).flatMap (fileMembers start s)

theorem fileMembers_eq {start path : String} {s : σ} {e : Entry} (h : lookup? s path = some e) :
    fileMembers start s path = [file (join start path) e.mode e.contents] := by
  rw [fileMembers, h]
  rfl

theorem writable_file {start path : String} {e : Entry} (hstart : PackableBelow start)
    (hpath : IsFilePath path) (h : Packable start path e) :
    Writable (file (join start path) e.mode e.contents) where
  relative := isRelative_file (Path.isFilePath_join hstart.normal hpath)
  clean := zero_notMem_nameBytes (Path.notMem_join (by decide) hstart.clean h.clean)
  nameSize := h.nameSize
  mode := h.mode
  size := h.size

theorem writable_directory {path : String} (hpath : IsFilePath path) (hclean : '\x00' ∉ path.toList)
    (hsize : IsCounted ((nameBytes (path ++ "/")).length + 1)) : Writable (directory path) where
  relative := isRelative_directory hpath
  clean := zero_notMem_nameBytes (by simpa [directory] using hclean)
  nameSize := hsize
  mode := (by decide : 0o777 < 8 ^ 7)
  size := (by decide : IsCounted 0)

/-- The directories of a file have shorter names than the file. -/
theorem writable_ancestor {start path dir : String} (hstart : PackableBelow start)
    (hpath : IsFilePath path) (hclean : '\x00' ∉ path.toList)
    (hsize : IsCounted ((nameBytes (join start path)).length + 1))
    (hdir : dir ∈ Path.ancestors path) : Writable (directory (join start dir)) := by
  obtain ⟨rest, rfl⟩ := Path.exists_of_mem_ancestors hdir
  have hdir : IsFilePath dir := (Path.isFilePath_append_slash.mp hpath).1
  have hclean : '\x00' ∉ dir.toList := fun hmem => hclean (by simp [hmem])
  rw [Path.join_append_slash start dir rest hdir.2, nameBytes_append] at hsize
  refine writable_directory (Path.isFilePath_join hstart.normal hdir)
    (Path.notMem_join (by decide) hstart.clean hclean) ?_
  unfold IsCounted at hsize ⊢
  rw [List.length_append] at hsize
  omega

theorem exists_of_mem_directories {start : String} {s : σ} {m : Member}
    (h : m ∈ directories start s) : start ≠ "" ∧ m = directory start ∨
      ∃ path ∈ paths s, ∃ dir ∈ Path.ancestors path, m = directory (join start dir) := by
  rcases List.mem_append.mp h with h | h
  · split at h
    · exact absurd h List.not_mem_nil
    · next hne => exact .inl ⟨hne, List.mem_singleton.mp h⟩
  · obtain ⟨dir, hdir, rfl⟩ := List.mem_map.mp h
    obtain ⟨path, hpath, hdir⟩ := List.mem_flatMap.mp (Dict.mem_sortKeys.mp hdir)
    exact .inr ⟨path, hpath, dir, hdir, rfl⟩

theorem writable_all [Lawful σ] {start : String} {s : σ} (hstart : PackableBelow start)
    (hpaths : PathsNormal s) (hs : ∀ path e, lookup? s path = some e → Packable start path e) :
    ∀ m ∈ storedMembers start s, Writable m := by
  intro m hm
  rcases List.mem_append.mp hm with hm | hm
  · rcases exists_of_mem_directories hm with ⟨hne, rfl⟩ | ⟨path, hpath, dir, hdir, rfl⟩
    · exact writable_directory ⟨hstart.normal, hne⟩ hstart.clean hstart.nameSize
    · obtain ⟨e, he⟩ := Option.isSome_iff_exists.mp ((Lawful.mem_paths s path).mp hpath)
      have hentry := hs path e he
      exact writable_ancestor hstart (hpaths path hpath) hentry.clean hentry.nameSize hdir
  · obtain ⟨path, hpath, hm⟩ := List.mem_flatMap.mp hm
    obtain ⟨e, he, rfl⟩ := List.mem_map.mp hm
    exact writable_file hstart (hpaths path hpath) (hs path e (Option.mem_toList.mp he))

/-- The files of a store are written one by one. -/
theorem mapM_writtenFile (h : Host) (options : PackOptions) (start : String) {s : σ}
    {files : List String} {bytes : Bytes} {members : String → List Member}
    (hs : ∀ path ∈ files, ∃ e, lookup? s path = some e ∧
      entryMembers h options start path e = .ok (members path))
    (hw : written options.owner (files.flatMap members) = .ok bytes) :
    ∃ pieces, files.mapM (writtenFile h options start s) = .ok pieces ∧ pieces.flatten = bytes := by
  induction files generalizing bytes with
  | nil => exact ⟨[], rfl, Except.ok.inj hw⟩
  | cons path files ih =>
    obtain ⟨e, he, hentry⟩ := hs path List.mem_cons_self
    rw [List.flatMap_cons] at hw
    obtain ⟨first, rest, hfirst, hrest, rfl⟩ := written_append hw
    obtain ⟨pieces, hpieces, hflat⟩ := ih (fun p hp => hs p (List.mem_cons_of_mem _ hp)) hrest
    have hpath : writtenFile h options start s path = .ok first := by
      rw [writtenFile, he]
      dsimp only
      rw [hentry]
      exact hfirst
    refine ⟨first :: pieces, ?_, by rw [List.flatten_cons, hflat]⟩
    rw [List.mapM_cons, hpath, hpieces]
    rfl

theorem exists_of_mem_paths [Lawful σ] {s : σ} {P : String → Entry → Prop}
    (hs : ∀ path e, lookup? s path = some e → P path e) :
    ∀ path ∈ paths s, ∃ e, lookup? s path = some e ∧ P path e := by
  intro path hpath
  obtain ⟨e, he⟩ := Option.isSome_iff_exists.mp ((Lawful.mem_paths s path).mp hpath)
  exact ⟨e, he, hs path e he⟩

theorem pack_of_members (h : Host) (options : PackOptions) {start : String} {s : σ} {bytes : Bytes}
    {members : String → List Member} (hstart : IsNormal start)
    (hs : ∀ path ∈ paths s, ∃ e, lookup? s path = some e ∧
      entryMembers h options start path e = .ok (members path))
    (hw : written options.owner (directories start s ++ (paths s).flatMap members) = .ok bytes) :
    pack h options start s = .ok (bytes ++ ending) := by
  obtain ⟨first, rest, hfirst, hrest, rfl⟩ := written_append hw
  obtain ⟨pieces, hpieces, rfl⟩ := mapM_writtenFile h options start hs hrest
  have hnormalize : Path.normalize start = .ok start := by
    rw [Path.normalize, hstart]
  unfold pack
  rw [hnormalize]
  change (written options.owner (directories start s) >>= fun dirs =>
    (paths s).mapM (writtenFile h options start s) >>= fun files =>
      Except.ok (dirs ++ files.flatten ++ ending)) = _
  rw [hfirst, hpieces]
  rfl

theorem pack_eq [Lawful σ] (h : Host) (options : PackOptions) {start : String} {s : σ}
    {bytes : Bytes} (hstart : IsNormal start)
    (hs : ∀ path e, lookup? s path = some e → e.symlink = none)
    (hw : written options.owner (storedMembers start s) = .ok bytes) :
    pack h options start s = .ok (bytes ++ ending) := by
  refine pack_of_members h options hstart (fun path hpath => ?_) hw
  obtain ⟨e, he, hlink⟩ := exists_of_mem_paths hs path hpath
  refine ⟨e, he, ?_⟩
  rw [entryMembers, Entry.isLink, hlink, fileMembers_eq he]
  rfl

theorem memberPath_join {start path : String} (hstart : IsNormal start) (hpath : IsFilePath path) :
    memberPath (below start) (nameBytes (join start path)) = path := by
  have hjoin := Path.isFilePath_join hstart hpath
  have hslash := (Path.isFilePath_iff.mp hjoin).2
  have hstrip : Text.after? (below start) (join start path) = some path := by
    rw [Text.after?_eq_some]
    unfold below join
    rw [if_neg hpath.2]
    split
    · rw [String.empty_append]
    · rfl
  unfold memberPath
  dsimp only
  rw [nameBytes, Text.lossyFrom_toUTF8, Text.map_replace_of_notMem hslash, String.ofList_toList,
    Path.after?_dot_of_isFilePath hjoin, Option.getD_none, hstrip, Option.getD_some]

theorem take_contents {m : Member} {f : Found} (h : Reads m f) (cap : Nat) :
    f.raw.data.take (min f.raw.size cap) = m.contents.take (min m.contents.length cap) := by
  obtain ⟨more, hmore⟩ := h.contents
  rw [h.size, ← hmore, List.take_append_of_le_length (Nat.min_le_left _ _)]

theorem memberFile_of_reads {start path : String} {e : Entry} {f : Found} (cap : Nat)
    (hstart : IsNormal start) (hpath : IsFilePath path) (hlink : e.symlink = none)
    (hf : Reads (file (join start path) e.mode e.contents) f) :
    memberFile ⟨below start, cap⟩ f = .ok (path, truncated cap e) := by
  have hname : memberPath (below start) f.name = path := by
    rw [hf.name]
    exact memberPath_join hstart hpath
  have hcontents : (⟨(f.raw.data.take (min f.raw.size cap)).toArray⟩ : ByteArray) =
      e.contents.extract 0 (min e.contents.size cap) := by
    apply ByteArray.ext
    apply Array.toList_inj.mp
    rw [take_contents hf, ByteArray.data_extract, Array.toList_extract, List.extract_eq_take_drop]
    rfl
  have hmode : Header.mode f.raw.block = e.mode := hf.mode
  unfold memberFile
  dsimp only
  rw [hname, Path.normalizeFile_of_isFilePath hpath, hcontents, hmode]
  rw [truncated, hlink]
  rfl

theorem kind_of_mem_directories {start : String} {s : σ} {m : Member}
    (h : m ∈ directories start s) : m.kind = .directory := by
  rcases exists_of_mem_directories h with ⟨_, rfl⟩ | ⟨_, _, _, _, rfl⟩ <;> rfl

theorem unpackMembers_directories (options : UnpackOptions) (d : τ) {all : List Member}
    {found : List Found} (hkind : ∀ m ∈ all, m.kind = .directory)
    (h : List.Forall₂ Reads all found) (rest : List Found) :
    unpackMembers options d (found ++ rest) = unpackMembers options d rest := by
  induction h with
  | nil => rfl
  | @cons m f all found hf _ ih =>
    have hskip : Header.isFile f.raw.block = false := by
      rw [hf.isFile, hkind m List.mem_cons_self]
      decide
    rw [List.cons_append, unpackMembers, hskip]
    exact ih fun m' hm' => hkind m' (List.mem_cons_of_mem _ hm')

/-- The files of one store at some paths put into another store. -/
def putAll (cap : Nat) (s : σ) (d : τ) (files : List String) : τ :=
  files.foldl (fun d path =>
    match lookup? s path with
    | some e => put d path (truncated cap e)
    | none => d) d

theorem unpackMembers_files {start : String} {s : σ} (cap : Nat) (hstart : IsNormal start)
    {files : List String}
    (hpaths : ∀ path ∈ files, IsFilePath path)
    (hs : ∀ path ∈ files, ∃ e, lookup? s path = some e ∧ e.symlink = none)
    {found : List Found}
    (h : List.Forall₂ Reads (files.flatMap (fileMembers start s)) found) (d : τ) :
    unpackMembers ⟨below start, cap⟩ d found = (putAll cap s d files, .ok files.length) := by
  induction files generalizing found d with
  | nil =>
    cases h
    rfl
  | cons path files ih =>
    obtain ⟨e, he, hlink⟩ := hs path List.mem_cons_self
    have hpath := hpaths path List.mem_cons_self
    rw [List.flatMap_cons, fileMembers_eq he, List.singleton_append] at h
    cases h with
    | @cons _ f _ found hf hrest =>
      have hfile : Header.isFile f.raw.block = true := hf.isFile
      have hmore := ih (fun p hp => hpaths p (List.mem_cons_of_mem _ hp))
        (fun p hp => hs p (List.mem_cons_of_mem _ hp)) hrest (put d path (truncated cap e))
      rw [unpackMembers, hfile, memberFile_of_reads cap hstart hpath hlink hf]
      simp only [Bool.not_true, Bool.false_eq_true, if_false, hmore, putAll, List.foldl_cons, he,
        List.length_cons]
      rfl

theorem lookup?_putAll [Lawful τ] (cap : Nat) (s : σ) (d : τ) (files : List String)
    (path : String) : lookup? (putAll cap s d files) path =
      if path ∈ files then ((lookup? s path).map (truncated cap)).or (lookup? d path)
      else lookup? d path := by
  induction files generalizing d with
  | nil => rfl
  | cons file files ih =>
    cases he : lookup? s file with
    | none =>
      have hstep : putAll cap s d (file :: files) = putAll cap s d files := by
        rw [putAll, List.foldl_cons, he]
        rfl
      rw [hstep, ih]
      by_cases hpath : path = file
      · rw [hpath, he, if_pos List.mem_cons_self]
        split <;> rfl
      · simp only [List.mem_cons, hpath, false_or]
    | some e =>
      have hstep : putAll cap s d (file :: files) =
          putAll cap s (put d file (truncated cap e)) files := by
        rw [putAll, List.foldl_cons, he]
        rfl
      rw [hstep, ih, Lawful.lookup?_put]
      by_cases hpath : file = path
      · subst hpath
        rw [if_pos rfl, he, if_pos List.mem_cons_self]
        split <;> rfl
      · have hne : path ≠ file := fun heq => hpath heq.symm
        simp only [List.mem_cons, hne, hpath, false_or, if_false]

theorem unpackMembers_stored {start : String} {s : σ} (cap : Nat) (hstart : IsNormal start)
    (hpaths : PathsNormal s)
    (hs : ∀ path ∈ paths s, ∃ e, lookup? s path = some e ∧ e.symlink = none)
    {found : List Found} (h : List.Forall₂ Reads (storedMembers start s) found) (d : τ) :
    unpackMembers ⟨below start, cap⟩ d found =
      (putAll cap s d (paths s), .ok (paths s).length) := by
  have hdirs := (List.forall₂_take_append _ _ _ h.flip).flip
  have hfiles := (List.forall₂_drop_append _ _ _ h.flip).flip
  have hsplit := List.take_append_drop (directories start s).length found
  have hskip := unpackMembers_directories ⟨below start, cap⟩ d
    (fun m hm => kind_of_mem_directories hm) hdirs (found.drop (directories start s).length)
  rw [hsplit] at hskip
  rw [hskip, unpackMembers_files cap hstart hpaths hs hfiles d]

/-- Unpacking what was packed puts the files of the store over those of the destination, each of
them cut to the bound, and counts them. -/
theorem unpack_pack [Lawful σ] [Lawful τ] (h : Host) (options : PackOptions) (cap : Nat)
    {start : String} {s : σ} (hstart : PackableBelow start) (hpaths : PathsNormal s)
    (hs : ∀ path e, lookup? s path = some e → Packable start path e) (d : τ) :
    ∃ bytes, pack h options start s = .ok bytes ∧
      (unpack ⟨below start, cap⟩ bytes d).2 = .ok (size s) ∧
      ∀ path, lookup? (unpack ⟨below start, cap⟩ bytes d).1 path =
        ((lookup? s path).map (truncated cap)).or (lookup? d path) := by
  obtain ⟨bytes, found, hbytes, hread, hfound⟩ :=
    read_written (writable_all hstart hpaths hs) options.owner
  have hlink : ∀ path e, lookup? s path = some e → e.symlink = none :=
    fun path e he => (hs path e he).noLink
  have hpack := pack_eq h options hstart.normal hlink hbytes
  have hmembers := unpackMembers_stored cap hstart.normal hpaths (exists_of_mem_paths hlink) hfound d
  have hunpack : unpack ⟨below start, cap⟩ (bytes ++ ending) d =
      (putAll cap s d (paths s), .ok (paths s).length) := by
    rw [unpack, hread]
    dsimp only
    rw [hmembers]
    rfl
  refine ⟨bytes ++ ending, hpack, ?_, fun path => ?_⟩
  · rw [hunpack, Lawful.size_eq]
  · rw [hunpack, lookup?_putAll]
    by_cases hpath : path ∈ paths s
    · rw [if_pos hpath]
    · have hnone : lookup? s path = none := by
        rw [Lawful.mem_paths, Option.isSome_iff_ne_none, not_not] at hpath
        exact hpath
      rw [if_neg hpath, hnone]
      rfl

section

/-- A file name that does not fit into a header together with its directories. -/
def longFile : String := "models/" ++ String.ofList (List.replicate 100 'v') ++ ".k"

def modelTree : FileTree :=
  .ofEntries [(longFile, ⟨⟨#[1]⟩, 0o644, none⟩), ("models/pod.k", ⟨⟨#[1, 2, 3]⟩, 0o600, none⟩)]

def earlierTree : Overlay :=
  .ofBase (.ofEntries [("kcl.mod", ⟨⟨#[7]⟩, 0o644, none⟩), ("models/pod.k", ⟨⟨#[9]⟩, 0o755, none⟩)])

set_option maxRecDepth 4000 in
theorem packable_modelTree {path : String} {e : Entry} (h : lookup? modelTree path = some e) :
    Packable "input" path e := by
  have hmem := Dict.mem_of_get? h
  have hentries : modelTree.entries = [("models/pod.k", ⟨⟨#[1, 2, 3]⟩, 0o600, none⟩),
      (longFile, ⟨⟨#[1]⟩, 0o644, none⟩)] := by decide
  rw [hentries] at hmem
  simp only [List.mem_cons, List.not_mem_nil, or_false, Prod.mk.injEq] at hmem
  rcases hmem with ⟨rfl, rfl⟩ | ⟨rfl, rfl⟩
  · constructor <;> decide
  · constructor <;> decide

set_option maxRecDepth 4000 in
theorem unpack_pack_modelTree :
    PackableBelow "input" ∧ PathsNormal modelTree ∧
    (∀ path e, lookup? modelTree path = some e → Packable "input" path e) ∧
    100 < (nameBytes (join "input" longFile)).length ∧
    ∃ bytes, pack ∅ { owner := ⟨some 1000, none⟩ } "input" modelTree = .ok bytes ∧
      (unpack ⟨"input/", 2⟩ bytes earlierTree).2 = .ok 2 ∧
      lookup? (unpack ⟨"input/", 2⟩ bytes earlierTree).1 "models/pod.k" =
        some ⟨⟨#[1, 2]⟩, 0o600, none⟩ ∧
      lookup? (unpack ⟨"input/", 2⟩ bytes earlierTree).1 longFile =
        some ⟨⟨#[1]⟩, 0o644, none⟩ ∧
      lookup? (unpack ⟨"input/", 2⟩ bytes earlierTree).1 "kcl.mod" =
        some ⟨⟨#[7]⟩, 0o644, none⟩ := by
  have hstart : PackableBelow "input" := by constructor <;> decide
  have hpaths : PathsNormal modelTree := by
    unfold PathsNormal
    decide
  have hfiles : ∀ path e, lookup? modelTree path = some e → Packable "input" path e :=
    fun _ _ => packable_modelTree
  obtain ⟨bytes, hpack, hcount, hlookup⟩ :=
    unpack_pack ∅ { owner := ⟨some 1000, none⟩ } 2 hstart hpaths hfiles earlierTree
  refine ⟨hstart, hpaths, hfiles, by decide, bytes, hpack, hcount, ?_, ?_, ?_⟩
  · exact (hlookup _).trans (by decide)
  · exact (hlookup _).trans (by decide)
  · exact (hlookup _).trans (by decide)

end

end ResourceModels.Archive
