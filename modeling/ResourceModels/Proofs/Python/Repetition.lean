import ResourceModels.Proofs.Python.Relocation

/-!
# Laying out once more

The layout is made of what the packages bring and of the markers of directories. Nothing is changed
outside the target, no marker is overwritten, and a shared model is the one of the first package
that has it. Since all of it depends on the packages alone, laying out once more changes nothing.
-/

namespace ResourceModels.Python

open FileStore (Put SameFiles lookup? put paths dirs mem_dirs_iff isFilePath_of_mem_dirs overwritten?
  supplied? Lawful PathsNormal)
open ResourceModels.Path (Apart IsFilePath isBelow join normalizeFile fileName)

/-- What some files bring into the layout. -/
def brought (view : String → Option Entry) (source target : String) (list : List String) :
    List Put :=
  list.filterMap fun file => (view file).bind (moved? source target file)

/-- The markers of some directories. -/
def markers (marked : List String) : List Put :=
  marked.map fun dir => ⟨join dir marker, .file .empty, false⟩

section

variable {view : String → Option Entry} {source target file module package : String}
  {list marked : List String} {p : Put} {e : Entry}

theorem exists_of_mem_brought (hp : p ∈ brought view source target list) :
    ∃ file ∈ list, ∃ e, view file = some e ∧ moved? source target file e = some p := by
  obtain ⟨file, hfile, hput⟩ := List.mem_filterMap.mp hp
  obtain ⟨e, he, hput⟩ := Option.bind_eq_some_iff.mp hput
  exact ⟨file, hfile, e, he, hput⟩

theorem brought_cons (he : view file = some e) :
    brought view source target (file :: list) =
      (moved? source target file e).toList ++ brought view source target list := by
  rw [brought, List.filterMap_cons, he, Option.bind_some]
  cases moved? source target file e <;> rfl

theorem mem_markers : p ∈ markers marked ↔
    ∃ dir ∈ marked, p = ⟨join dir marker, .file .empty, false⟩ := by
  simp only [markers, List.mem_map, eq_comm (b := p)]

end

section

variable {σ : Type} [FileStore σ] {s s' t : σ} {source target : String} {list marked : List String}

theorem mem_packages {dir : String} : dir ∈ packages s target ↔
    dir ∈ dirs s ∧ (dir = target ∨ isBelow dir target = true) := by
  rw [packages, List.mem_filter, Bool.or_eq_true, decide_eq_true_eq]

theorem foldlM_mark_eq (h : ∀ dir ∈ marked, IsFilePath dir) :
    marked.foldlM mark s = .ok ((markers marked).foldl Put.run s) := by
  induction marked generalizing s with
  | nil => rfl
  | cons dir rest ih =>
    obtain ⟨hdir, hrest⟩ := List.forall_mem_cons.mp h
    have hpath := Path.isFilePath_join hdir.1 (show IsFilePath marker by decide)
    have hmark : mark s dir = .ok (Put.run s ⟨join dir marker, .file .empty, false⟩) := by
      simp only [mark, isFile_of_isFilePath hpath, Put.run, true_and,
        write_of_normalizeFile (Path.normalizeFile_of_isFilePath hpath)]
      split <;> rfl
    rw [List.foldlM_cons, hmark]
    exact ih hrest

variable [Lawful σ]

/-- What is brought into the layout changes no file of the source. -/
theorem lookup?_run_moved (hapart : Apart source target) {file : String} (hfile : IsFilePath file)
    {e : Entry} {path : String} (hpath : isBelow path source = true) :
    lookup? ((moved? source target file e).toList.foldl Put.run s) path = lookup? s path :=
  FileStore.lookup?_run_of_forall_ne fun _ hp =>
    (hapart.ne_of_isBelow hpath (isBelow_of_moved? hapart hfile (Option.mem_toList.mp hp)).1).symm

/-- If the files of the packages can be moved, they can be moved into any layout. -/
theorem foldlM_moveFile_again (hapart : Apart source target) {view : String → Option Entry}
    (hlist : ∀ file ∈ list, IsFilePath file ∧ isBelow file source = true ∧ (view file).isSome)
    (hs : ∀ path, isBelow path source = true → lookup? s path = view path)
    (h : list.foldlM (moveFile source target) s = .ok s')
    (ht : ∀ path, isBelow path source = true → lookup? t path = view path) :
    list.foldlM (moveFile source target) t =
      .ok ((brought view source target list).foldl Put.run t) := by
  induction list generalizing s t with
  | nil => rfl
  | cons file rest ih =>
    obtain ⟨⟨hfile, hbelow, hsome⟩, hrest⟩ := List.forall_mem_cons.mp hlist
    obtain ⟨e, he⟩ := Option.isSome_iff_exists.mp hsome
    rw [List.foldlM_cons, Outcome.bind_eq_ok] at h
    obtain ⟨next, hnext, hmoved⟩ := h
    have hfound := (hs file hbelow).trans he
    have hagain := moveFile_again hapart hfile hfound hnext ((ht file hbelow).trans he)
    rw [moveFile_again hapart hfile hfound hnext hfound] at hnext
    cases hnext
    rw [List.foldlM_cons, hagain, brought_cons he, List.foldl_append]
    refine ih hrest (fun path hpath => ?_) hmoved fun path hpath => ?_
    · rw [lookup?_run_moved hapart hfile hpath, hs path hpath]
    · rw [lookup?_run_moved hapart hfile hpath, ht path hpath]

/-- The files of the generator, in the order of their paths. -/
def left (s : σ) (source : String) : List String := (paths s).filter (isBelow · source)

/-- The layout with what is brought into it, and with the markers of its directories. -/
def settle (puts : List Put) (target : String) (t : σ) : σ :=
  (markers (packages (puts.foldl Put.run t) target)).foldl Put.run (puts.foldl Put.run t)

/-- What is brought into the layout goes to paths below the target, and over another file only
under a name that is no marker. -/
structure Contained (target : String) (puts : List Put) : Prop where
  below : ∀ p ∈ puts, isBelow p.key target = true
  normal : ∀ p ∈ puts, IsFilePath p.key
  unmarked : ∀ p ∈ puts, p.overwrites = true → fileName p.key ≠ marker

omit [Lawful σ] in
theorem contained_brought (hs : PathsNormal s) (hapart : Apart source target) :
    Contained target (brought (lookup? s) source target (left s source)) := by
  have hput : ∀ p ∈ brought (lookup? s) source target (left s source), isBelow p.key target = true ∧
      IsFilePath p.key ∧ (p.overwrites = true → fileName p.key ≠ marker) := by
    intro p hp
    obtain ⟨file, hfile, e, _, hput⟩ := exists_of_mem_brought hp
    exact isBelow_of_moved? hapart (hs file (List.mem_filter.mp hfile).1) hput
  exact ⟨fun p hp => (hput p hp).1, fun p hp => (hput p hp).2.1, fun p hp => (hput p hp).2.2⟩

section

variable {puts : List Put} {path dir : String}

theorem isFilePath_of_mem_packages (ht : PathsNormal t) (h : Contained target puts)
    (hdir : dir ∈ packages (puts.foldl Put.run t) target) : IsFilePath dir :=
  isFilePath_of_mem_dirs (FileStore.pathsNormal_run h.normal ht) (mem_packages.mp hdir).1

theorem pathsNormal_settle (ht : PathsNormal t) (h : Contained target puts) :
    PathsNormal (settle puts target t) := by
  refine FileStore.pathsNormal_run (fun p hp => ?_) (FileStore.pathsNormal_run h.normal ht)
  obtain ⟨dir, hdir, rfl⟩ := mem_markers.mp hp
  exact Path.isFilePath_join (isFilePath_of_mem_packages ht h hdir).1 (by decide)

/-- If the packages could be laid out once, they can be laid out over any layout. -/
theorem arrange_again (hapart : Apart source target) (hs : PathsNormal s)
    (h : arrange s source target = .ok s') (ht : PathsNormal t)
    (hsame : ∀ path, isBelow path source = true → lookup? t path = lookup? s path) :
    arrange t source target =
      .ok (settle (brought (lookup? s) source target (left s source)) target t) := by
  have hunder : ∀ s : σ, FileStore.filesUnder s source = .ok (left s source) := fun s => by
    rw [FileStore.filesUnder, Path.normalize_eq_ok.mpr hapart.left]
    rfl
  have hleft : left t source = left s source := by
    refine Dict.keys_eq_of_mem ((Lawful.paths_pairwise t).filter _)
      ((Lawful.paths_pairwise s).filter _) fun path => ?_
    rw [left, left, List.mem_filter, List.mem_filter]
    refine and_congr_left fun hpath => ?_
    rw [Lawful.mem_paths, Lawful.mem_paths, hsame path hpath]
  have hlist : ∀ file ∈ left s source,
      IsFilePath file ∧ isBelow file source = true ∧ (lookup? s file).isSome := by
    intro file hfile
    obtain ⟨hmem, hbelow⟩ := List.mem_filter.mp hfile
    exact ⟨hs file hmem, hbelow, (Lawful.mem_paths s file).mp hmem⟩
  obtain ⟨modules, hmodules, h⟩ := Outcome.bind_eq_ok.mp h
  rw [hunder] at hmodules
  cases hmodules
  obtain ⟨moved, hmoved, _⟩ := Outcome.bind_eq_ok.mp h
  have hagain := foldlM_moveFile_again hapart hlist (fun _ _ => rfl) hmoved hsame
  have hmarked : ∀ dir ∈ packages ((brought (lookup? s) source target (left s source)).foldl
      Put.run t) target, IsFilePath dir := fun dir =>
    isFilePath_of_mem_packages ht (contained_brought hs hapart)
  rw [arrange, hunder, hleft]
  change (left s source).foldlM (moveFile source target) t >>= _ = _
  rw [hagain]
  exact foldlM_mark_eq hmarked

theorem overwritten?_markers (marked : List String) :
    overwritten? (markers marked) path = none :=
  FileStore.overwritten?_eq_none fun p hp hover => by
    obtain ⟨dir, _, rfl⟩ := mem_markers.mp hp
    cases hover

theorem lookup?_settle (t : σ) : lookup? (settle puts target t) path =
    (lookup? (puts.foldl Put.run t) path).or
      (supplied? (markers (packages (puts.foldl Put.run t) target)) path) := by
  rw [settle, FileStore.lookup?_run, overwritten?_markers, Option.none_or]

/-- Outside the target nothing is changed. -/
theorem lookup?_settle_of_notBelow (htarget : target ≠ "") (h : Contained target puts)
    (hpath : isBelow path target = false) :
    lookup? (settle puts target t) path = lookup? t path := by
  have hne : ∀ key, isBelow key target = true → key ≠ path := by
    rintro key hkey rfl
    rw [hpath] at hkey
    cases hkey
  rw [settle, FileStore.lookup?_run_of_forall_ne fun p hp => ?_,
    FileStore.lookup?_run_of_forall_ne fun p hp => hne _ (h.below p hp)]
  obtain ⟨dir, hdir, rfl⟩ := mem_markers.mp hp
  refine hne _ ?_
  rcases (mem_packages.mp hdir).2 with rfl | hbelow
  · exact Path.isBelow_join htarget (by decide)
  · have hdir_ne := Path.ne_empty_of_isBelow htarget hbelow
    exact Path.isBelow_trans hdir_ne htarget (Path.isBelow_join hdir_ne (by decide)) hbelow

/-- No marker that was there before is overwritten. -/
theorem lookup?_settle_of_marker (h : Contained target puts) (hname : fileName path = marker)
    (hsome : (lookup? t path).isSome) :
    lookup? (settle puts target t) path = lookup? t path := by
  obtain ⟨e, he⟩ := Option.isSome_iff_exists.mp hsome
  have hnone : overwritten? puts path = none :=
    FileStore.overwritten?_eq_none fun p hp hover hkey => h.unmarked p hp hover (hkey ▸ hname)
  rw [lookup?_settle, FileStore.lookup?_run, hnone, he]
  rfl

/-- Markers are put into directories that hold something, so they make no new directory. -/
theorem mem_packages_of_mem_dirs (hdir_ne : dir ≠ "") (hnormal : PathsNormal (puts.foldl Put.run t))
    (hdir : dir ∈ dirs (settle puts target t)) (hin : dir = target ∨ isBelow dir target = true) :
    dir ∈ packages (puts.foldl Put.run t) target := by
  refine mem_packages.mpr ⟨?_, hin⟩
  rw [mem_dirs_iff hdir_ne] at hdir ⊢
  obtain ⟨path, hpath, hbelow⟩ := hdir
  rw [Lawful.mem_paths, lookup?_settle] at hpath
  cases hmoved : lookup? (puts.foldl Put.run t) path with
  | some e => exact ⟨path, (Lawful.mem_paths _ _).mpr (by rw [hmoved]; rfl), hbelow⟩
  | none =>
    rw [hmoved, Option.none_or] at hpath
    obtain ⟨p, hp, _, rfl⟩ := FileStore.exists_of_supplied? hpath
    obtain ⟨marked, hmarked, rfl⟩ := mem_markers.mp hp
    have hmarked_dirs := (mem_packages.mp hmarked).1
    have hmarked_ne := (isFilePath_of_mem_dirs hnormal hmarked_dirs).2
    obtain ⟨other, hother, hbelow'⟩ := (mem_dirs_iff hmarked_ne).mp hmarked_dirs
    refine ⟨other, hother, ?_⟩
    -- the directory of a marker is `dir` or lies in it
    rcases Path.nested_of_isBelow hdir_ne hmarked_ne hbelow
      (Path.isBelow_join hmarked_ne (by decide)) with rfl | hin | hin
    · exact hbelow'
    · rw [Path.join_of_ne hmarked_ne (by decide)] at hbelow
      rw [Path.not_between hmarked_ne (by decide) hbelow] at hin
      cases hin
    · exact Path.isBelow_trans hmarked_ne hdir_ne hbelow' hin

/-- Every directory at or below the target has its marker. -/
theorem isSome_marker (htarget : target ≠ "") (ht : PathsNormal t) (h : Contained target puts)
    (hdir : dir ∈ dirs (settle puts target t)) (hin : dir = target ∨ isBelow dir target = true) :
    (lookup? (settle puts target t) (join dir marker)).isSome := by
  have hdir_ne : dir ≠ "" := by
    rcases hin with rfl | hin
    · exact htarget
    · exact Path.ne_empty_of_isBelow htarget hin
  have hmarked := mem_packages_of_mem_dirs hdir_ne (FileStore.pathsNormal_run h.normal ht) hdir hin
  have hsupplied := FileStore.isSome_supplied? (mem_markers.mpr ⟨dir, hmarked, rfl⟩) rfl rfl
  rw [lookup?_settle]
  cases lookup? (puts.foldl Put.run t) (join dir marker) with
  | some e => rfl
  | none => exact hsupplied

/-- Settling once more changes nothing. -/
theorem sameFiles_settle (htarget : target ≠ "") (ht : PathsNormal t) (h : Contained target puts) :
    SameFiles (settle puts target (settle puts target t)) (settle puts target t) := by
  have hmoved : SameFiles (puts.foldl Put.run (settle puts target t)) (settle puts target t) := by
    refine FileStore.sameFiles_run (s := t) fun path hsome => ?_
    obtain ⟨e, he⟩ := Option.isSome_iff_exists.mp hsome
    rw [lookup?_settle, he]
    rfl
  have hpresent : ∀ p ∈ markers (packages (puts.foldl Put.run (settle puts target t)) target),
      p.overwrites = false ∧
        (lookup? (puts.foldl Put.run (settle puts target t)) p.key).isSome := by
    intro p hp
    obtain ⟨dir, hdir, rfl⟩ := mem_markers.mp hp
    obtain ⟨hdirs, hin⟩ := mem_packages.mp hdir
    rw [FileStore.dirs_congr hmoved] at hdirs
    rw [hmoved]
    exact ⟨rfl, isSome_marker htarget ht h hdirs hin⟩
  rw [settle, FileStore.run_of_present hpresent]
  exact hmoved

end

/-- Where a module of a kind comes to stand. -/
def moduleKey? (source target file : String) : Option String :=
  (parts? source file).bind fun part =>
    if isShared part.2 then none
    else (relocated? part.2 (kindOf part.1)).bind fun path =>
      (normalizeFile (join target path)).toOption

/-- A file of a package that the layout takes as a shared model. Nothing is at its place yet, no
module of a kind comes to stand there, and no package before has it. -/
structure IsTaken (s : σ) (source target file module : String) : Prop where
  present : file ∈ paths s
  parts : (parts? source file).map (·.2) = some module
  shared : isShared module = true
  absent : lookup? s (join target module) = none
  unrivalled : ∀ other ∈ paths s, moduleKey? source target other ≠ some (join target module)
  first : ∀ other ∈ paths s, other < file → (parts? source other).map (·.2) ≠ some module

namespace IsTaken

variable {file module package : String} {e : Entry}

omit [Lawful σ] in
theorem exists_package (h : IsTaken s source target file module) :
    ∃ package, parts? source file = some (package, module) := by
  obtain ⟨⟨package, own⟩, hparts, hown⟩ := Option.map_eq_some_iff.mp h.parts
  exact ⟨package, hparts.trans (congrArg some (Prod.ext rfl hown))⟩

omit [Lawful σ] in
theorem overwritten?_eq_none (h : IsTaken s source target file module) :
    overwritten? (brought (lookup? s) source target (left s source)) (join target module) =
      none := by
  refine FileStore.overwritten?_eq_none fun p hp hput hkey => ?_
  obtain ⟨other, hother, e, _, hmoved⟩ := exists_of_mem_brought hp
  obtain ⟨package, own, hown, ⟨_, rfl⟩ | ⟨hshared, _, path, hpath, hnormal⟩⟩ :=
    moved?_eq_some hmoved
  · cases hput
  · refine h.unrivalled other (List.mem_filter.mp hother).1 ?_
    rw [moduleKey?, hown, Option.bind_some, hshared, hpath, ← hkey]
    exact Outcome.toOption_eq_some.mpr hnormal

omit [Lawful σ] in
/-- No file before it brings the same shared model. -/
theorem supplied?_eq_none (h : IsTaken s source target file module) (hs : PathsNormal s)
    (hapart : Apart source target) {before : List String}
    (hbefore : ∀ other ∈ before, other ∈ paths s ∧ other < file) :
    supplied? (brought (lookup? s) source target before) (join target module) = none := by
  have hsource := hapart.isFilePath_left.2
  have htarget := hapart.isFilePath_right.2
  obtain ⟨package, hparts⟩ := h.exists_package
  refine FileStore.supplied?_eq_none fun p hp hadds hkey => ?_
  obtain ⟨other, hother, e, _, hmoved⟩ := exists_of_mem_brought hp
  obtain ⟨hpresent, hless⟩ := hbefore other hother
  obtain ⟨package', own, hown, ⟨_, rfl⟩ | ⟨_, hput, _⟩⟩ := moved?_eq_some hmoved
  · have howns := (isFilePath_of_parts? hsource (hs other hpresent) hown).2.2
    have hmodule := (isFilePath_of_parts? hsource (hs file h.present) hparts).2.2
    dsimp only at hkey
    rw [Path.join_of_ne htarget howns, Path.join_of_ne htarget hmodule,
      String.append_right_inj] at hkey
    exact h.first other hpresent hless (by rw [hown, hkey]; rfl)
  · rw [hput] at hadds
    cases hadds

theorem supplied?_eq (h : IsTaken s source target file module) (hs : PathsNormal s)
    (hapart : Apart source target) (he : lookup? s file = some e) :
    supplied? (brought (lookup? s) source target (left s source)) (join target module) =
      some (.file e.contents) := by
  obtain ⟨package, hparts⟩ := h.exists_package
  have hmem : file ∈ left s source :=
    List.mem_filter.mpr ⟨h.present, isBelow_of_parts? hapart.isFilePath_left.2 hparts⟩
  obtain ⟨before, after, hsplit⟩ := List.append_of_mem hmem
  have hsorted : (before ++ file :: after).Pairwise (· < ·) :=
    hsplit ▸ (Lawful.paths_pairwise s).filter _
  have hbefore : ∀ other ∈ before, other ∈ paths s ∧ other < file := fun other hother => by
    have hleft : other ∈ left s source := hsplit ▸ List.mem_append_left _ hother
    exact ⟨(List.mem_filter.mp hleft).1,
      (List.pairwise_append.mp hsorted).2.2 other hother file List.mem_cons_self⟩
  have hmoved : moved? source target file e =
      some ⟨join target module, .file e.contents, false⟩ := by
    rw [moved?, hparts, Option.bind_some, if_pos h.shared]
  have happend : brought (lookup? s) source target (left s source) =
      brought (lookup? s) source target before ++
        brought (lookup? s) source target (file :: after) := by
    rw [hsplit, brought, List.filterMap_append]
    rfl
  rw [happend, FileStore.supplied?_append, h.supplied?_eq_none hs hapart hbefore, Option.none_or,
    brought_cons he, hmoved, Option.toList_some, List.singleton_append, FileStore.supplied?_cons,
    if_pos ⟨rfl, rfl⟩]

theorem lookup?_settle (h : IsTaken s source target file module) (hs : PathsNormal s)
    (hapart : Apart source target) (he : lookup? s file = some e) :
    lookup? (settle (brought (lookup? s) source target (left s source)) target s)
      (join target module) = some (.file e.contents) := by
  rw [Python.lookup?_settle, FileStore.lookup?_run, h.overwritten?_eq_none, h.absent,
    h.supplied?_eq hs hapart he]
  rfl

end IsTaken

/-- Laying out changes nothing outside the target, gives a marker to every directory there and
overwrites none, and takes each shared model from the first package that has it. Laying out once
more succeeds and changes nothing. -/
theorem arrange_settles (hs : PathsNormal s) (hapart : Apart source target)
    (h : arrange s source target = .ok s') :
    (∀ path, isBelow path target = false → lookup? s' path = lookup? s path) ∧
    (∀ dir ∈ dirs s', dir = target ∨ isBelow dir target = true →
      (lookup? s' (join dir marker)).isSome) ∧
    (∀ path, fileName path = marker → (lookup? s path).isSome →
      lookup? s' path = lookup? s path) ∧
    (∀ file module e, IsTaken s source target file module → lookup? s file = some e →
      lookup? s' (join target module) = some (.file e.contents)) ∧
    ∃ s'', arrange s' source target = .ok s'' ∧ SameFiles s'' s' := by
  have htarget := hapart.isFilePath_right.2
  have hcontained := contained_brought hs hapart
  have hs' := arrange_again hapart hs h hs fun _ _ => rfl
  cases h.symm.trans hs'
  refine ⟨fun path => lookup?_settle_of_notBelow htarget hcontained,
    fun dir => isSome_marker htarget hs hcontained,
    fun path => lookup?_settle_of_marker hcontained,
    fun file module e htaken => htaken.lookup?_settle hs hapart, ?_⟩
  have hagain := arrange_again hapart hs h (pathsNormal_settle hs hcontained) fun path hpath =>
    lookup?_settle_of_notBelow htarget hcontained (hapart.notBelow hpath)
  exact ⟨_, hagain, sameFiles_settle htarget hs hcontained⟩

end

instance (t : FileTree) (source target file module : String) :
    Decidable (IsTaken t source target file module) :=
  decidable_of_iff (file ∈ paths t ∧ (parts? source file).map (·.2) = some module ∧
      isShared module = true ∧ lookup? t (join target module) = none ∧
      (∀ other ∈ paths t, moduleKey? source target other ≠ some (join target module)) ∧
      ∀ other ∈ paths t, other < file → (parts? source other).map (·.2) ≠ some module)
    ⟨fun ⟨hpresent, hparts, hshared, habsent, hunrivalled, hfirst⟩ =>
        ⟨hpresent, hparts, hshared, habsent, hunrivalled, hfirst⟩,
      fun h => ⟨h.present, h.parts, h.shared, h.absent, h.unrivalled, h.first⟩⟩

/-- Two packages with a shared model each. The kind of the second one leads up, and one directory of
the layout has a marker already. -/
def twoPackages : FileTree :=
  .ofEntries
    [("in/a/io/k8s/apimachinery/m", .file (Text.encode "1")),
      ("in/b_../io/b/c", .file (Text.encode "2")),
      ("in/b_../io/k8s/apimachinery/m", .file (Text.encode "3")),
      ("out/io/__init__.py", .file (Text.encode "4"))]

theorem twoPackages_settled :
    PathsNormal twoPackages ∧ Apart "in" "out" ∧
      IsTaken twoPackages "in" "out" "in/a/io/k8s/apimachinery/m" "io/k8s/apimachinery/m" ∧
      ∃ t, arrange twoPackages "in" "out" = .ok t ∧ (lookup? t "out/io/c").isSome ∧
        lookup? t (join "out" "io/k8s/apimachinery/m") = some (.file (Text.encode "1")) ∧
        lookup? t "out/io/__init__.py" = some (.file (Text.encode "4")) ∧
        (lookup? t (join "out" marker)).isSome ∧
        ∃ t', arrange t "in" "out" = .ok t' ∧ SameFiles t' t := by
  have hnormal : PathsNormal twoPackages := by
    rw [PathsNormal]
    decide +kernel
  have hapart : Apart "in" "out" := by decide
  have htaken : IsTaken twoPackages "in" "out" "in/a/io/k8s/apimachinery/m"
      "io/k8s/apimachinery/m" := by
    decide +kernel
  have hmoved : ((arrange twoPackages "in" "out").toOption.map fun t =>
      (lookup? t "out/io/c").isSome) = some true := by
    decide +kernel
  obtain ⟨t, ht, hmodule⟩ := Option.map_eq_some_iff.mp hmoved
  rw [Outcome.toOption_eq_some] at ht
  have hfirst : lookup? twoPackages "in/a/io/k8s/apimachinery/m" =
      some (.file (Text.encode "1")) := by decide
  have hmarker : lookup? twoPackages "out/io/__init__.py" = some (.file (Text.encode "4")) := by
    decide
  have hdir : "out" ∈ dirs t :=
    (mem_dirs_iff (by decide)).mpr ⟨"out/io/c", (Lawful.mem_paths _ _).mpr hmodule, by decide⟩
  obtain ⟨-, hmarked, hkept, hshared, hagain⟩ := arrange_settles hnormal hapart ht
  refine ⟨hnormal, hapart, htaken, t, ht, hmodule, hshared _ _ _ htaken hfirst, ?_,
    hmarked "out" hdir (.inl rfl), hagain⟩
  rw [hkept "out/io/__init__.py" (by decide) (by rw [hmarker]; rfl), hmarker]

end ResourceModels.Python
