import ResourceModels.Proofs.Archive.Linked
import ResourceModels.Proofs.FileTree

/-!
# Directories packed through their links

A directory of the machine that is loaded, packed through its links and unpacked gives the files that
paths lead to from there, each at its path. A link that leads nowhere is left out where the directory
itself holds it. But below a directory that another link leads to, it makes packing go wrong.
-/

namespace ResourceModels.Archive

open FileStore (lookup? paths Lawful)
open Host (IsName Lists Lost Readable Reaches)
open ResourceModels.Path (IsFilePath)

/-- A link of a directory leads to a directory below which another link is lost. -/
def LostLink (h : Host) (place : List String) : Prop :=
  ∃ segments own target, Reaches h false place segments own (.link target) ∧
    LostThrough h place segments

/-- The files of a tree are those that paths lead to from a directory, through links. -/
structure HoldsFiles (h : Host) (root : String) (t : FileTree) : Prop where
  file : ∀ path e, lookup? t path = some e → e.symlink = none ∧ IsFilePath path ∧
    ∃ found mode, Host.stat h true (HostPath.join root path) = .ok (found, .file e.contents mode)
  held : ∀ path found contents mode, IsFilePath path →
    Host.stat h true (HostPath.join root path) = .ok (found, .file contents mode) →
    ∃ e, lookup? t path = some e ∧ e.contents = contents

/-- What is written of a node at a path of the tree of a directory. -/
def Stands (h : Host) (place : List String) (path : String) (member : Member) : Prop :=
  (∃ segments found contents mode, Reaches h false place segments found (.file contents mode) ∧
    Text.join "/" segments = path ∧ member = file path (mode % 0o1000) contents) ∨
  ∃ segments own target, Reaches h false place segments own (.link target) ∧
    Text.join "/" segments = path ∧ ThroughLink h place segments member

/-- A member of an archive is a directory, or a file that names reach. -/
def Written (h : Host) (place : List String) (member : Member) : Prop :=
  member.kind = .directory ∨ ∃ segments found contents mode mode',
    Reaches h true place segments found (.file contents mode) ∧
      member = file (Text.join "/" segments) mode' contents

variable {h : Host} {root path : String} {place segments found : List String} {n : Host.Node}
  {member : Member} {t : FileTree} {cap : Nat}

theorem written_of_stands (hstands : Stands h place path member) : Written h place member := by
  rcases hstands with ⟨segments, found, contents, mode, hreaches, rfl, rfl⟩ |
    ⟨segments, own, target, hlink, rfl, more, found, n, hreaches, hmember⟩
  · exact .inr ⟨segments, found, contents, mode, _, hreaches.followed nofun, rfl⟩
  · cases n with
    | dir =>
      cases hmember
      exact .inl rfl
    | file contents mode =>
      cases hmember
      exact .inr ⟨_, found, contents, mode, _, hreaches, rfl⟩
    | link target => cases hmember

/-- Only paths of the tree have anything that stands there. -/
theorem mem_paths_of_stands (ht : Host.TreeOf h place t) (hstands : Stands h place path member) :
    path ∈ paths t := by
  rw [Lawful.mem_paths, Option.isSome_iff_exists]
  rcases hstands with ⟨segments, found, contents, mode, hreaches, rfl, _⟩ |
    ⟨segments, own, target, hlink, rfl, _⟩
  · exact ⟨_, (ht _ _).mpr ⟨segments, found, _, hreaches, rfl, rfl⟩⟩
  · exact ⟨_, (ht _ _).mpr ⟨segments, own, _, hlink, rfl, rfl⟩⟩

section

variable (hread : Readable h root place)

include hread

theorem counted_of_reaches {follow : Bool} (hreaches : Reaches h follow place segments found n)
    (hne : segments ≠ []) :
    IsCounted ((nameBytes (Text.join "/" segments)).length + 1) ∧
      IsCounted ((nameBytes (Text.join "/" segments ++ "/")).length + 1) := by
  have hsize : (Text.join "/" segments).utf8ByteSize ≤ Host.maxPath + 1 + Host.maxName := by
    obtain ⟨init, name, rfl⟩ := (List.eq_nil_or_concat' segments).resolve_left hne
    obtain ⟨mid, hinit, hlast⟩ := hreaches.exists_of_append (List.cons_ne_nil _ _)
    have hname := hlast.names name List.mem_cons_self
    cases follow with
    | true => exact hread.size_le hinit hname
    | false => exact hread.size_le (hinit.followed nofun) hname
  have hlength : (nameBytes (Text.join "/" segments)).length =
      (Text.join "/" segments).utf8ByteSize := rfl
  have hslash : (nameBytes "/").length = 1 := by decide
  unfold IsCounted
  rw [nameBytes_append, List.length_append, hlength, hslash]
  have hbound : Host.maxPath + 1 + Host.maxName + 3 + 2 * blockSize < Nat.pow 2 64 := by decide
  omega

theorem writable_of_reaches {follow : Bool} (hreaches : Reaches h follow place segments found n)
    (hne : segments ≠ []) : Writable (directory (Text.join "/" segments)) ∧
      ∀ mode contents, mode < 8 ^ 7 → IsCounted contents.size →
        Writable (file (Text.join "/" segments) mode contents) := by
  have hpath := Host.isFilePath_names hreaches.names hne
  have hclean := Host.zero_notMem_names hreaches.names
  obtain ⟨hfile, hdir⟩ := counted_of_reaches hread hreaches hne
  exact ⟨writable_directory hpath hclean hdir, fun mode contents hmode hsize =>
    ⟨isRelative_file hpath, zero_notMem_nameBytes hclean, hfile, hmode, hsize⟩⟩

theorem writable_of_stands (hstands : Stands h place path member) : Writable member := by
  rcases hstands with ⟨segments, found, contents, mode, hreaches, rfl, rfl⟩ |
    ⟨segments, own, target, hlink, rfl, more, found, n, hreaches, hmember⟩
  · have hsize := (hread.file _ _ _ _ (hreaches.followed nofun)).2
    have hmode : mode % 0o1000 < 8 ^ 7 :=
      Nat.lt_trans (Nat.mod_lt _ (by decide)) (by decide)
    exact (writable_of_reaches hread hreaches (hreaches.ne_nil nofun)).2 _ _ hmode hsize
  · have hne := List.append_ne_nil_of_left_ne_nil (hlink.ne_nil nofun) more
    obtain ⟨hdir, hfile⟩ := writable_of_reaches hread hreaches hne
    cases n with
    | dir =>
      cases hmember
      exact hdir
    | file contents mode =>
      cases hmember
      exact hfile _ _ (by decide) (hread.file _ _ _ _ hreaches).2
    | link target => cases hmember

/-- What is written of an entry of the tree, unless it is a link through which another is lost. -/
theorem entryMembers_spec {options : PackOptions} (hoptions : options.linkBase = some root)
    {e : Entry} (hreaches : Reaches h false place segments found n)
    (hentry : Host.stored? n = some e) :
    Lists (entryMembers h options "" (Text.join "/" segments) e)
      ((∃ target, n = .link target) ∧ LostThrough h place segments)
      (Stands h place (Text.join "/" segments)) := by
  have hsame : ∀ segments' found' n', Reaches h false place segments' found' n' → n' ≠ .dir →
      Text.join "/" segments' = Text.join "/" segments →
        segments' = segments ∧ found' = found ∧ n' = n :=
    fun segments' found' n' hreaches' hn' => hreaches'.eq_of_join hreaches (hreaches'.ne_nil hn')
      (hreaches.ne_nil (Host.ne_dir_of_stored hentry))
  cases n with
  | dir => cases hentry
  | file contents mode =>
    cases hentry
    refine Lists.congr Host.lists_ok (iff_of_false id fun hlost => nomatch hlost.1) fun member => ?_
    rw [List.mem_singleton]
    constructor
    · rintro rfl
      exact .inl ⟨segments, found, contents, mode, hreaches, rfl, rfl⟩
    · rintro (⟨segments', found', contents', mode', hreaches', hjoin, rfl⟩ |
        ⟨segments', own, target, hlink, hjoin, _⟩)
      · cases (hsame _ _ _ hreaches' nofun hjoin).2.2
        rfl
      · cases (hsame _ _ _ hlink nofun hjoin).2.2
  | link target =>
    cases hentry
    have hmembers : entryMembers h options "" (Text.join "/" segments) (.link target) =
        linkMembers h root (Text.join "/" segments) (Text.join "/" segments) := by
      rw [entryMembers, hoptions]
      rfl
    rw [hmembers]
    refine (linkMembers_spec hread hreaches.names (hreaches.ne_nil nofun)).congr ?_ fun member => ?_
    · exact ⟨fun hlost => ⟨⟨target, rfl⟩, hlost⟩, fun hlost => hlost.2⟩
    · constructor
      · exact fun hthrough => .inr ⟨segments, found, target, hreaches, rfl, hthrough⟩
      · rintro (⟨segments', found', contents', mode', hreaches', hjoin, _⟩ |
          ⟨segments', own, target', hlink, hjoin, hthrough⟩)
        · cases (hsame _ _ _ hreaches' nofun hjoin).2.2
        · obtain ⟨rfl, _⟩ := hsame _ _ _ hlink nofun hjoin
          exact hthrough

/-- The walk below the directory that a link leads to ends at the link that is lost there. -/
theorem pack_lost (ht : Host.TreeOf h place t) {options : PackOptions}
    (hoptions : options.linkBase = some root) (hlost : LostLink h place) :
    ∃ cause, pack h options "" t = .error cause := by
  obtain ⟨segments, own, target, hlink, hthrough⟩ := hlost
  rw [Outcome.exists_error_iff]
  rintro ⟨bytes, hpack⟩
  have hlookup := (ht (Text.join "/" segments) (.link target)).mpr
    ⟨segments, own, _, hlink, rfl, rfl⟩
  have hmem := (Lawful.mem_paths t _).mpr (Option.isSome_of_mem hlookup)
  obtain ⟨cause, hcause⟩ :=
    (entryMembers_spec hread hoptions hlink rfl).1 ⟨⟨target, rfl⟩, hthrough⟩
  simp only [pack, Outcome.bind_eq_ok] at hpack
  obtain ⟨start, hstart, dirs, _, files, hfiles, _⟩ := hpack
  obtain rfl : start = "" := (Except.ok.inj hstart).symm
  obtain ⟨piece, _, hpiece⟩ :=
    Outcome.exists_of_mem_forall₂ (Outcome.mapM_eq_ok.mp hfiles).flip hmem
  have hfailed : writtenFile h options "" t (Text.join "/" segments) = .error cause := by
    rw [writtenFile, hlookup]
    dsimp only
    rw [hcause]
    rfl
  cases hfailed.symm.trans hpiece

/-- What is written of a path of the tree. -/
def membersAt (h : Host) (options : PackOptions) (t : FileTree) (path : String) : List Member :=
  ((lookup? t path).bind fun e => (entryMembers h options "" path e).toOption).getD []

theorem membersAt_spec (ht : Host.TreeOf h place t) {options : PackOptions}
    (hoptions : options.linkBase = some root) (hkept : ¬LostLink h place)
    (hpath : path ∈ paths t) : (∃ e, lookup? t path = some e ∧
      entryMembers h options "" path e = .ok (membersAt h options t path)) ∧
      ∀ member, member ∈ membersAt h options t path ↔ Stands h place path member := by
  obtain ⟨e, he⟩ := Option.isSome_iff_exists.mp ((Lawful.mem_paths t path).mp hpath)
  obtain ⟨segments, found, n, hreaches, rfl, hentry⟩ := (ht path e).mp he
  obtain ⟨all, hall, hmem⟩ := (entryMembers_spec hread hoptions hreaches hentry).2 fun hlost => by
    obtain ⟨⟨target, rfl⟩, hthrough⟩ := hlost
    exact hkept ⟨segments, found, target, hreaches, hthrough⟩
  have hmembers : membersAt h options t (Text.join "/" segments) = all := by
    rw [membersAt, he, Option.bind_some, hall]
    rfl
  rw [hmembers]
  exact ⟨⟨e, he, hall⟩, hmem⟩

theorem writable_directories (ht : Host.TreeOf h place t) (hmember : member ∈ directories "" t) :
    Writable member ∧ Written h place member := by
  have hstart : PackableBelow "" := by constructor <;> decide
  rcases exists_of_mem_directories hmember with ⟨hne, _⟩ | ⟨path, hpath, dir, hdir, rfl⟩
  · exact absurd rfl hne
  obtain ⟨e, he⟩ := Option.isSome_iff_exists.mp ((Lawful.mem_paths t path).mp hpath)
  obtain ⟨segments, found, n, hreaches, rfl, hentry⟩ := (ht path e).mp he
  have hne := hreaches.ne_nil (Host.ne_dir_of_stored hentry)
  exact ⟨writable_ancestor hstart (Host.isFilePath_names hreaches.names hne)
    (Host.zero_notMem_names hreaches.names) (counted_of_reaches hread hreaches hne).1 hdir, .inl rfl⟩

/-- Where no link is lost, the archive has a member for each node that names reach, and further ones
for directories only. -/
theorem pack_kept (ht : Host.TreeOf h place t) {options : PackOptions}
    (hoptions : options.linkBase = some root) (hkept : ¬LostLink h place) :
    ∃ all bytes found, pack h options "" t = .ok bytes ∧ read bytes = (found, true) ∧
      List.Forall₂ Reads all found ∧ (∀ member ∈ all, Written h place member) ∧
      ∀ path member, Stands h place path member → member ∈ all := by
  have hspec := fun path (hpath : path ∈ paths t) => membersAt_spec hread ht hoptions hkept hpath
  have hmembers : ∀ member ∈ directories "" t ++ (paths t).flatMap (membersAt h options t),
      Writable member ∧ Written h place member := by
    intro member hmember
    rcases List.mem_append.mp hmember with hmember | hmember
    · exact writable_directories hread ht hmember
    · obtain ⟨path, hpath, hmember⟩ := List.mem_flatMap.mp hmember
      have hstands := ((hspec path hpath).2 member).mp hmember
      exact ⟨writable_of_stands hread hstands, written_of_stands hstands⟩
  obtain ⟨bytes, found, hbytes, hreadBytes, hfound⟩ :=
    read_written (fun member hmember => (hmembers member hmember).1) options.owner
  have hpack : pack h options "" t = .ok (bytes ++ ending) :=
    pack_of_members h options rfl (fun path hpath => (hspec path hpath).1) hbytes
  refine ⟨_, _, found, hpack, hreadBytes, hfound, fun member hmember => (hmembers member hmember).2,
    fun path member hstands => List.mem_append_right _ (List.mem_flatMap.mpr ?_)⟩
  have hpath := mem_paths_of_stands ht hstands
  exact ⟨path, hpath, ((hspec path hpath).2 member).mpr hstands⟩

end

theorem file_inj {path path' : String} {mode mode' : Nat} {contents contents' : ByteArray}
    (h : file path mode contents = file path' mode' contents') :
    path = path' ∧ mode = mode' ∧ contents = contents' := by
  obtain ⟨hpath, -, hmode, hcontents⟩ := Member.mk.inj h
  exact ⟨hpath, hmode, ByteArray.ext (Array.toList_inj.mp hcontents)⟩

/-- A file of an archive tells the entry that it was written of, which is no link. -/
theorem entry_eq_of_file {path path' : String} {e e' : Entry} (hlink : e.symlink = none)
    (hlink' : e'.symlink = none)
    (h : file path e.mode e.contents = file path' e'.mode e'.contents) :
    path = path' ∧ e = e' := by
  obtain ⟨rfl, hmode, hcontents⟩ := file_inj h
  obtain ⟨contents, mode, symlink⟩ := e
  obtain ⟨contents', mode', symlink'⟩ := e'
  cases hmode
  cases hcontents
  cases hlink
  cases hlink'
  exact ⟨rfl, rfl⟩

theorem truncated_eq {e : Entry} (hsize : e.contents.size ≤ cap) : truncated cap e = e := by
  rw [truncated, Nat.min_eq_left hsize, ByteArray.extract_zero_size]

/-- Of members that are directories or files, the files are put. -/
theorem unpackMembers_written {σ : Type} [FileStore σ] {all : List Member} {found : List Found}
    (hfound : List.Forall₂ Reads all found)
    (hall : ∀ member ∈ all, member.kind = .directory ∨ ∃ path, ∃ e : Entry, IsFilePath path ∧
      e.symlink = none ∧ e.contents.size ≤ cap ∧ member = file path e.mode e.contents) (s : σ) :
    ∃ written, unpackMembers ⟨"", cap⟩ s found = (putFiles s written, .ok written.length) ∧
      ∀ path e, (path, e) ∈ written ↔ e.symlink = none ∧ file path e.mode e.contents ∈ all := by
  induction hfound generalizing s with
  | nil => exact ⟨[], rfl, fun path e => by simp⟩
  | @cons member f all found hf hrest ih =>
    obtain ⟨hmember, hmore⟩ := List.forall_mem_cons.mp hall
    rw [unpackMembers, hf.isFile]
    rcases hmember with hdir | ⟨path, e, hpath, hlink, hsize, rfl⟩
    · obtain ⟨written, hwritten, hmem⟩ := ih hmore s
      rw [hdir]
      refine ⟨written, hwritten, fun path e => ?_⟩
      have hne : file path e.mode e.contents ≠ member := fun heq => by
        rw [← heq] at hdir
        cases hdir
      rw [hmem, List.mem_cons]
      simp only [hne, false_or]
    · obtain ⟨written, hwritten, hmem⟩ := ih hmore (FileStore.put s path e)
      have hfile : memberFile ⟨below "", cap⟩ f = .ok (path, truncated cap e) :=
        memberFile_of_reads cap rfl hpath hlink hf
      rw [truncated_eq hsize] at hfile
      refine ⟨(path, e) :: written, ?_, fun path' e' => ?_⟩
      · have hown : memberFile ⟨"", cap⟩ f = .ok (path, e) := hfile
        rw [hown]
        dsimp only
        rw [hwritten]
        rfl
      · have hsame : (path', e') = (path, e) ↔
            e'.symlink = none ∧ file path' e'.mode e'.contents = file path e.mode e.contents := by
          constructor
          · intro heq
            obtain ⟨rfl, rfl⟩ := Prod.mk.inj heq
            exact ⟨hlink, rfl⟩
          · intro hown
            exact Prod.ext_iff.mpr (entry_eq_of_file hown.1 hlink hown.2)
        rw [List.mem_cons, hmem, List.mem_cons, hsame, and_or_left]

/-- A file that names reach stands in the archive: at the path of the tree where it is, or where the
first link on the way is. -/
theorem exists_stands {contents : ByteArray} {mode : Nat}
    (hreaches : Reaches h true place segments found (.file contents mode)) :
    ∃ path mode', Stands h place path (file (Text.join "/" segments) mode' contents) := by
  rcases hreaches.exists_link with hown | ⟨front, back, own, target, rfl, hlink⟩
  · exact ⟨_, _, .inl ⟨segments, found, contents, mode, hown, rfl, rfl⟩⟩
  · exact ⟨_, _, .inr ⟨front, own, target, hlink, rfl, back, found, _, hreaches, rfl⟩⟩

/-- The files of an archive of what names reach are those that paths lead to. -/
theorem holdsFiles_putFiles (hread : Readable h root place) {all : List Member}
    {written : List (String × Entry)} (hall : ∀ member ∈ all, Written h place member)
    (hstands : ∀ path member, Stands h place path member → member ∈ all)
    (hwritten : ∀ path e, (path, e) ∈ written ↔
      e.symlink = none ∧ file path e.mode e.contents ∈ all) :
    HoldsFiles h root (putFiles ∅ written) := by
  have hfiles : ∀ path e, (path, e) ∈ written → e.symlink = none ∧ ∃ segments found mode,
      Reaches h true place segments found (.file e.contents mode) ∧
        Text.join "/" segments = path := by
    intro path e hmem
    obtain ⟨hlink, hfile⟩ := (hwritten path e).mp hmem
    rcases hall _ hfile with hdir | ⟨segments, found, contents, mode, mode', hreaches, heq⟩
    · cases hdir
    · obtain ⟨rfl, _, rfl⟩ := file_inj heq
      exact ⟨hlink, segments, found, mode, hreaches, rfl⟩
  constructor
  · intro path e hlookup
    obtain ⟨hlink, segments, found, mode, hreaches, rfl⟩ :=
      hfiles path e (mem_of_lookup?_putFiles rfl hlookup)
    have hne := hreaches.ne_nil nofun
    exact ⟨hlink, Host.isFilePath_names hreaches.names hne, found, mode,
      (hread.stat_iff hreaches.names hne).mpr hreaches⟩
  · intro path found contents mode hpath hstat
    obtain ⟨segments, hreaches, rfl⟩ := hread.exists_names hpath hstat
    obtain ⟨path', mode', hfile⟩ := exists_stands hreaches
    have hmem : (Text.join "/" segments, (⟨contents, mode', none⟩ : Entry)) ∈ written :=
      (hwritten _ _).mpr ⟨rfl, hstands _ _ hfile⟩
    obtain ⟨e, hlookup, hown⟩ := exists_lookup?_putFiles (s := (∅ : FileTree)) hmem
    obtain ⟨_, segments', found', mode'', hreaches', hjoin⟩ := hfiles _ e hown
    obtain ⟨rfl, _, heq⟩ := hreaches'.eq_of_join hreaches (hreaches'.ne_nil nofun)
      (hreaches.ne_nil nofun) hjoin
    cases heq
    exact ⟨e, hlookup, rfl⟩

/-- A directory that is loaded can be packed through its links exactly if none of them leads to a
directory below which another link is lost. What is packed then gives the files that paths lead to
from the directory; a link that is lost in the directory itself is left out. -/
theorem load_pack_unpack (hread : Readable h root place) (owner : Owner)
    (hcap : ∀ segments found contents mode,
      Reaches h true place segments found (.file contents mode) → contents.size ≤ cap) :
    ∃ t, Host.load h root = .ok t ∧
      ((∃ bytes, pack h ⟨some root, owner⟩ "" t = .ok bytes) ↔ ¬LostLink h place) ∧
      ∀ bytes, pack h ⟨some root, owner⟩ "" t = .ok bytes →
        (∃ count, (unpack ⟨"", cap⟩ bytes (∅ : FileTree)).2 = .ok count) ∧
          HoldsFiles h root (unpack ⟨"", cap⟩ bytes (∅ : FileTree)).1 := by
  obtain ⟨t, hload, ht⟩ := hread.tree.load_spec hread.follow.stat_base
  have hoptions : (⟨some root, owner⟩ : PackOptions).linkBase = some root := rfl
  have hkept : (∃ bytes, pack h ⟨some root, owner⟩ "" t = .ok bytes) → ¬LostLink h place :=
    fun hok hlost => Outcome.exists_error_iff.mp (pack_lost hread ht rfl hlost) hok
  refine ⟨t, hload, ⟨hkept, fun hnone => ?_⟩, fun bytes hbytes => ?_⟩
  · obtain ⟨_, bytes, _, hpack, _⟩ := pack_kept hread ht hoptions hnone
    exact ⟨bytes, hpack⟩
  obtain ⟨all, bytes', found, hpack, hreadBytes, hfound, hall, hstands⟩ :=
    pack_kept hread ht hoptions (hkept ⟨bytes, hbytes⟩)
  obtain rfl : bytes = bytes' := Except.ok.inj (hbytes.symm.trans hpack)
  obtain ⟨written, hunpack, hwritten⟩ := unpackMembers_written hfound
    (fun member hmember => (hall member hmember).imp_right
      fun ⟨segments, found, contents, mode, mode', hreaches, heq⟩ =>
        ⟨_, ⟨contents, mode', none⟩,
          Host.isFilePath_names hreaches.names (hreaches.ne_nil nofun), rfl,
          hcap _ _ _ _ hreaches, heq⟩) (∅ : FileTree)
  have hresult : unpack ⟨"", cap⟩ bytes (∅ : FileTree) =
      (putFiles ∅ written, .ok written.length) := by
    rw [unpack, hreadBytes]
    dsimp only
    rw [hunpack]
    rfl
  rw [hresult]
  exact ⟨⟨_, rfl⟩, holdsFiles_putFiles hread hall hstands hwritten⟩

section

open Host (IsTree Leads Steps)

/-- A directory with a file and a link to another directory, and a link that leads nowhere in one of
the two. -/
def sharedHost (dir : String) : Host :=
  ⟨[("p", .dir), ("p/main.k", .file ⟨#[1]⟩ 0o600), ("p/shared", .link "../shared"), ("shared", .dir),
    ("shared/lib.k", .file ⟨#[2, 3]⟩ 0o644), (dir ++ "/gone", .link "missing")]⟩

variable {dir name : String} (hdir : dir = "p" ∨ dir = "shared")

theorem leads_shared : Leads (sharedHost dir) 1 ["p"] ["shared"] ["shared"] .dir :=
  .link ⟨by decide, by decide, by decide⟩
    (show (sharedHost dir).node? ["shared", "p"] = some (.link "../shared") from rfl)
    (.up (.dir ⟨by decide, by decide, by decide⟩ rfl (.here _)))

include hdir

theorem isTree_sharedHost : IsTree (sharedHost dir) := by
  rcases hdir with rfl | rfl
  all_goals
    refine ⟨by decide, by decide, fun k hk => ?_⟩
    have hcases : k ∈ ["p", "p/main.k", "p/shared", "shared", "shared/lib.k", _] := hk
    simp only [List.mem_cons, List.not_mem_nil, or_false] at hcases
    rcases hcases with rfl | rfl | rfl | rfl | rfl | rfl
    · exact .inl rfl
    · exact .inr rfl
    · exact .inr rfl
    · exact .inl rfl
    · exact .inr rfl
    · exact .inr rfl

/-- The link that leads nowhere. -/
theorem not_leads_gone {cost : Nat} : ¬Leads (sharedHost dir) cost [dir] ["gone"] found n := by
  intro hleads
  have hsplit : Text.split (· = '/') "missing" = ["missing"] := by decide
  have hname : IsName "missing" := by decide
  rcases hdir with rfl | rfl
  all_goals
    obtain ⟨cost', hrest⟩ := hleads.of_link ⟨by decide, by decide, by decide⟩ rfl
    rw [hsplit] at hrest
    have hstep : Steps (sharedHost _) true [_] "missing" found n := ⟨hname, cost', hrest⟩
    obtain ⟨_, hnode⟩ := hstep.exists_node?
    cases hnode

/-- What names lead to from the one directory. -/
theorem steps_main (hstep : Steps (sharedHost dir) true ["p"] name found n) :
    name = "main.k" ∧ found = ["main.k", "p"] ∧ n = .file ⟨#[1]⟩ 0o600 ∨
      name = "shared" ∧ found = ["shared"] ∧ n = .dir := by
  have hmem : name ∈ Host.names (sharedHost dir) ["p"] :=
    (Host.mem_names (List.forall_mem_singleton.mpr (by decide))).mpr
      ⟨hstep.1.slash_notMem, hstep.exists_node?⟩
  have hnames : name ∈ ["main.k", "shared"] ∨ name = "gone" ∧ dir = "p" := by
    rcases hdir with rfl | rfl
    · have hall : Host.names (sharedHost "p") ["p"] = ["main.k", "shared", "gone"] := by decide
      rw [hall] at hmem
      simpa [or_assoc] using hmem
    · have hall : Host.names (sharedHost "shared") ["p"] = ["main.k", "shared"] := by decide
      rw [hall] at hmem
      exact .inl hmem
  simp only [List.mem_cons, List.not_mem_nil, or_false] at hnames
  rcases hnames with (rfl | rfl) | ⟨rfl, rfl⟩
  · have hown : Steps (sharedHost dir) true ["p"] "main.k" ["main.k", "p"] (.file ⟨#[1]⟩ 0o600) :=
      Host.steps_of_node? (by decide) rfl nofun
    exact .inl ⟨rfl, hstep.unique hown⟩
  · exact .inr ⟨rfl, hstep.unique ⟨hstep.1, 1, leads_shared⟩⟩
  · obtain ⟨cost, hleads⟩ := hstep.2
    exact absurd hleads (not_leads_gone (.inl rfl))

/-- What names lead to from the other directory. -/
theorem steps_shared (hstep : Steps (sharedHost dir) true ["shared"] name found n) :
    name = "lib.k" ∧ found = ["lib.k", "shared"] ∧ n = .file ⟨#[2, 3]⟩ 0o644 := by
  have hmem : name ∈ Host.names (sharedHost dir) ["shared"] :=
    (Host.mem_names (List.forall_mem_singleton.mpr (by decide))).mpr
      ⟨hstep.1.slash_notMem, hstep.exists_node?⟩
  have hnames : name = "lib.k" ∨ name = "gone" ∧ dir = "shared" := by
    rcases hdir with rfl | rfl
    · have hall : Host.names (sharedHost "p") ["shared"] = ["lib.k"] := by decide
      rw [hall] at hmem
      exact .inl (List.mem_singleton.mp hmem)
    · have hall : Host.names (sharedHost "shared") ["shared"] = ["lib.k", "gone"] := by decide
      rw [hall] at hmem
      simpa using hmem
  rcases hnames with rfl | ⟨rfl, rfl⟩
  · have hown : Steps (sharedHost dir) true ["shared"] "lib.k" ["lib.k", "shared"]
        (.file ⟨#[2, 3]⟩ 0o644) := Host.steps_of_node? (by decide) rfl nofun
    exact ⟨rfl, hstep.unique hown⟩
  · obtain ⟨cost, hleads⟩ := hstep.2
    exact absurd hleads (not_leads_gone (.inr rfl))

/-- What names reach from the other directory. -/
theorem reaches_shared (hreaches : Reaches (sharedHost dir) true ["shared"] segments found n) :
    segments = [] ∧ found = ["shared"] ∧ n = .dir ∨
      segments = ["lib.k"] ∧ found = ["lib.k", "shared"] ∧ n = .file ⟨#[2, 3]⟩ 0o644 := by
  cases hreaches with
  | here => exact .inl ⟨rfl, rfl, rfl⟩
  | last hstep =>
    obtain ⟨rfl, hfound⟩ := steps_shared hdir hstep
    exact .inr ⟨rfl, hfound⟩
  | step hstep => cases (steps_shared hdir hstep).2.2

/-- What names reach from the one directory. -/
theorem reaches_main (hreaches : Reaches (sharedHost dir) true ["p"] segments found n) :
    segments = [] ∧ found = ["p"] ∧ n = .dir ∨
      segments = ["main.k"] ∧ found = ["main.k", "p"] ∧ n = .file ⟨#[1]⟩ 0o600 ∨
      segments = ["shared"] ∧ found = ["shared"] ∧ n = .dir ∨
      segments = ["shared", "lib.k"] ∧ found = ["lib.k", "shared"] ∧
        n = .file ⟨#[2, 3]⟩ 0o644 := by
  cases hreaches with
  | here => exact .inl ⟨rfl, rfl, rfl⟩
  | last hstep hn =>
    rcases steps_main hdir hstep with ⟨rfl, hfound⟩ | ⟨_, _, rfl⟩
    · exact .inr (.inl ⟨rfl, hfound⟩)
    · exact absurd rfl hn
  | step hstep hrest =>
    rcases steps_main hdir hstep with ⟨_, _, hnode⟩ | ⟨rfl, rfl, _⟩
    · cases hnode
    rcases reaches_shared hdir hrest with ⟨rfl, hfound⟩ | ⟨rfl, hfound⟩
    · exact .inr (.inr (.inl ⟨rfl, hfound⟩))
    · exact .inr (.inr (.inr ⟨rfl, hfound⟩))

theorem followable_shared : Host.Followable (sharedHost dir) "/shared" ["shared"] := by
  have hbase : Leads (sharedHost dir) 0 [] (Text.split (· = '/') "/shared") ["shared"] .dir :=
    .idle (.inl rfl) (.dir ⟨by decide, by decide, by decide⟩ rfl (.here _))
  refine Host.followable_of_bounds (by decide) hbase fun segments cost found n hnames hleads => ?_
  rcases reaches_shared hdir (Host.reaches_true_iff.mpr ⟨hnames, cost, hleads⟩) with
    ⟨rfl, rfl, rfl⟩ | ⟨rfl, rfl, rfl⟩
  · obtain ⟨rfl, _⟩ := hleads.unique (.here _)
    decide
  · obtain ⟨rfl, _⟩ := hleads.unique (.file ⟨by decide, by decide, by decide⟩ rfl)
    decide

theorem followable_main : Host.Followable (sharedHost dir) "/p" ["p"] := by
  have hlib : Leads (sharedHost dir) 0 ["shared"] ["lib.k"] ["lib.k", "shared"]
      (.file ⟨#[2, 3]⟩ 0o644) := .file ⟨by decide, by decide, by decide⟩ rfl
  have hbase : Leads (sharedHost dir) 0 [] (Text.split (· = '/') "/p") ["p"] .dir :=
    .idle (.inl rfl) (.dir ⟨by decide, by decide, by decide⟩ rfl (.here _))
  refine Host.followable_of_bounds (by decide) hbase fun segments cost found n hnames hleads => ?_
  rcases reaches_main hdir (Host.reaches_true_iff.mpr ⟨hnames, cost, hleads⟩) with
    ⟨rfl, rfl, rfl⟩ | ⟨rfl, rfl, rfl⟩ | ⟨rfl, rfl, rfl⟩ | ⟨rfl, rfl, rfl⟩
  · obtain ⟨rfl, _⟩ := hleads.unique (.here _)
    decide
  · obtain ⟨rfl, _⟩ := hleads.unique (.file ⟨by decide, by decide, by decide⟩ rfl)
    decide
  · obtain ⟨rfl, _⟩ := hleads.unique leads_shared
    decide
  · obtain ⟨rfl, _⟩ := hleads.unique (leads_shared.append hlib)
    decide

theorem readable_sharedHost : Readable (sharedHost dir) "/p" ["p"] where
  tree := isTree_sharedHost hdir
  named := by decide
  follow := followable_main hdir
  below segments found hreaches := by
    rcases reaches_main hdir hreaches with
      ⟨_, rfl, _⟩ | ⟨_, _, hn⟩ | ⟨_, rfl, _⟩ | ⟨_, _, hn⟩
    · exact followable_main hdir
    · cases hn
    · exact followable_shared hdir
    · cases hn
  file segments found contents mode hreaches := by
    rcases reaches_main hdir hreaches with
      ⟨_, _, hn⟩ | ⟨_, rfl, hn⟩ | ⟨_, _, hn⟩ | ⟨_, rfl, hn⟩
    · cases hn
    · cases hn
      exact ⟨Host.stat_eq_ok_iff.mpr ⟨by decide, by decide, 0, by decide,
        .idle (.inl rfl) (.dir ⟨by decide, by decide, by decide⟩ rfl
          (.file ⟨by decide, by decide, by decide⟩ rfl))⟩, by decide⟩
    · cases hn
    · cases hn
      exact ⟨Host.stat_eq_ok_iff.mpr ⟨by decide, by decide, 0, by decide,
        .idle (.inl rfl) (.dir ⟨by decide, by decide, by decide⟩ rfl
          (.file ⟨by decide, by decide, by decide⟩ rfl))⟩, by decide⟩

omit hdir

theorem not_lostLink_sharedHost : ¬LostLink (sharedHost "p") ["p"] := by
  rintro ⟨segments, own, target, hlink, place, hplace, -, more, mid, name, lost, hmid, hname, hlost, -⟩
  rcases reaches_main (.inl rfl) hplace with ⟨rfl, -⟩ | ⟨-, -, hn⟩ | ⟨-, rfl, -⟩ | ⟨-, -, hn⟩
  · exact hlink.ne_nil nofun rfl
  · cases hn
  · rcases reaches_shared (.inl rfl) hmid with ⟨-, rfl, -⟩ | ⟨-, -, hn⟩
    · have hmem : name ∈ Host.names (sharedHost "p") ["shared"] :=
        (Host.mem_names (List.forall_mem_singleton.mpr (by decide))).mpr
          ⟨hname.slash_notMem, _, hlost⟩
      have hall : Host.names (sharedHost "p") ["shared"] = ["lib.k"] := by decide
      rw [hall] at hmem
      obtain rfl := List.mem_singleton.mp hmem
      cases hlost
    · cases hn
  · cases hn

/-- The link of the directory that leads nowhere is left out, and the file behind the other one
stands at its path. -/
theorem load_pack_unpack_sharedHost : Readable (sharedHost "p") "/p" ["p"] ∧
    ∃ t bytes, Host.load (sharedHost "p") "/p" = .ok t ∧
      pack (sharedHost "p") ⟨some "/p", {}⟩ "" t = .ok bytes ∧
      lookup? (unpack ⟨"", 2⟩ bytes (∅ : FileTree)).1 "gone" = none ∧
      ∃ e, lookup? (unpack ⟨"", 2⟩ bytes (∅ : FileTree)).1 "shared/lib.k" = some e ∧
        e.contents = ⟨#[2, 3]⟩ := by
  have hread : Readable (sharedHost "p") "/p" ["p"] := readable_sharedHost (.inl rfl)
  have hcap : ∀ segments found contents mode, Reaches (sharedHost "p") true ["p"] segments found
      (.file contents mode) → contents.size ≤ 2 := by
    intro segments found contents mode hreaches
    rcases reaches_main (.inl rfl) hreaches with
      ⟨_, _, hn⟩ | ⟨_, _, hn⟩ | ⟨_, _, hn⟩ | ⟨_, _, hn⟩ <;> cases hn <;> decide
  obtain ⟨t, hload, hpack, hholds⟩ := load_pack_unpack hread {} hcap
  obtain ⟨bytes, hbytes⟩ := hpack.mpr not_lostLink_sharedHost
  obtain ⟨_, hfiles⟩ := hholds bytes hbytes
  refine ⟨hread, t, bytes, hload, hbytes, ?_, ?_⟩
  · cases hlookup : lookup? (unpack ⟨"", 2⟩ bytes (∅ : FileTree)).1 "gone" with
    | none => rfl
    | some e =>
      obtain ⟨_, hpath, found, mode, hstat⟩ := hfiles.file "gone" e hlookup
      obtain ⟨segments, hreaches, hjoin⟩ := hread.exists_names hpath hstat
      rcases reaches_main (.inl rfl) hreaches with ⟨rfl, -⟩ | ⟨rfl, -⟩ | ⟨rfl, -⟩ | ⟨rfl, -⟩
      all_goals exact absurd hjoin (by decide)
  · refine hfiles.held "shared/lib.k" ["lib.k", "shared"] ⟨#[2, 3]⟩ 0o644 (by decide) ?_
    have hlib : Reaches (sharedHost "p") true ["p"] ["shared", "lib.k"] ["lib.k", "shared"]
        (.file ⟨#[2, 3]⟩ 0o644) :=
      .step ⟨by decide, 1, leads_shared⟩
        (.last ⟨by decide, 0, .file ⟨by decide, by decide, by decide⟩ rfl⟩ nofun)
    exact (hread.stat_iff hlib.names (hlib.ne_nil nofun)).mpr hlib

/-- The same link below the directory that the other link leads to makes packing go wrong. -/
theorem sharedHost_lost : Readable (sharedHost "shared") "/p" ["p"] ∧
    ∃ t, Host.load (sharedHost "shared") "/p" = .ok t ∧
      ∃ cause, pack (sharedHost "shared") ⟨some "/p", {}⟩ "" t = .error cause := by
  have hread : Readable (sharedHost "shared") "/p" ["p"] := readable_sharedHost (.inr rfl)
  obtain ⟨t, hload, ht⟩ := hread.tree.load_spec hread.follow.stat_base
  have hlink : Reaches (sharedHost "shared") false ["p"] ["shared"] ["shared", "p"]
      (.link "../shared") := .last ⟨by decide, rfl, rfl⟩ nofun
  have hdir : Reaches (sharedHost "shared") true ["p"] ["shared"] ["shared"] .dir :=
    .step ⟨by decide, 1, leads_shared⟩ (.here _)
  have hlost : Lost (sharedHost "shared") true ["shared"] :=
    ⟨rfl, [], ["shared"], "gone", "missing", .here _, by decide, rfl, fun _ _ _ =>
      not_leads_gone (.inr rfl)⟩
  exact ⟨hread, t, hload, pack_lost hread ht rfl ⟨_, _, _, hlink, _, hdir, hlost⟩⟩

end

end ResourceModels.Archive
