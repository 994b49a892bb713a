import ResourceModels.Proofs.FileStore.Invariant
import ResourceModels.Proofs.FileTree
import ResourceModels.Proofs.Glob
import ResourceModels.Proofs.Path.Directory
import ResourceModels.Suite

/-!
# Which directories are found

The directories found are those which a file lies below, whose name begins as asked for and which
one of the patterns matches once the tests folder is off its front. A pattern that names the tests
folder finds the outermost ones, unless the folder is given with a slash that the pattern lacks:
nothing is taken off that pattern.
-/

namespace ResourceModels

theorem Text.trimStart_of_not_startsWith {start s : String} (h : startsWith start s = false) :
    trimStart start s = s := by
  have hnone : start.toList.isPrefixOf? s.toList = none := by
    rw [Option.eq_none_iff_forall_ne_some]
    intro rest hrest
    have hstart : startsWith start s = true :=
      startsWith_iff.mpr ⟨rest, (isPrefixOf?_eq_some.mp hrest).symm⟩
    rw [h] at hstart
    cases hstart
  rw [trimStart]
  cases s.length with
  | zero => rw [afterAll, String.ofList_toList]
  | succ n => simp only [afterAll, hnone, String.ofList_toList]

namespace FileStore

variable {σ : Type} [FileStore σ] {files : σ} {pattern path dir : String} {found : List String}

theorem glob_eq_ok : glob files pattern = .ok found ↔ ∃ g, Glob.parse pattern = .ok g ∧
    found = Dict.sortKeys ((paths files ++ dirs files).filter g.matches) := by
  unfold glob
  cases Glob.parse pattern with
  | error cause => simp
  | ok g => simp [eq_comm]

/-- A directory that is there because a file lies below it. -/
def IsImplied (files : σ) (dir : String) : Prop :=
  dir ≠ "" ∧ ∃ path ∈ paths files, ∃ rest, path = dir ++ "/" ++ rest

section

variable (hfiles : PathsNormal files)

include hfiles

theorem IsImplied.isFilePath (h : IsImplied files dir) : Path.IsFilePath dir := by
  obtain ⟨_, path, hpath, rest, hrest⟩ := h
  exact (Path.isFilePath_append_slash.mp (hrest ▸ hfiles path hpath)).1

theorem mem_dirs : dir ∈ dirs files ↔ IsImplied files dir := by
  have hbelow : ∀ hne : dir ≠ "", dir ∈ dirs files ↔
      ∃ path ∈ paths files, ∃ rest, path = dir ++ "/" ++ rest := fun hne => by
    simp only [mem_dirs_iff hne, Path.isBelow_iff_exists hne]
  constructor
  · intro h
    have hne := (isFilePath_of_mem_dirs hfiles h).2
    exact ⟨hne, (hbelow hne).mp h⟩
  · rintro ⟨hne, h⟩
    exact (hbelow hne).mpr h

end

theorem isDir_iff [Lawful σ] (hdir : Path.IsFilePath dir) :
    isDir files dir = true ↔ IsImplied files dir := by
  unfold isDir
  rw [Path.normalize_eq_ok.mpr hdir.1]
  split
  · next h => exact absurd (Except.ok.inj h) hdir.2
  · next key _ h =>
    obtain rfl := Except.ok.inj h
    rw [Lawful.hasBelow_eq files dir hdir.2, List.any_eq_true, IsImplied, and_iff_right hdir.2]
    simp only [Path.isBelow_iff_exists hdir.2]
  · next h => cases h

end FileStore

namespace Suite

open FileStore (IsImplied PathsNormal isDir_iff mem_dirs)
open Glob (Matches)

section

variable {named folder pattern rest : String}

theorem relative_append : relative folder (folder ++ rest) =
    if Text.trimStart "/" rest = "" then "*" else Text.trimStart "/" rest := by
  rw [relative, Text.after?_eq_some.mpr rfl, Option.getD_some]

theorem relative_of_naming (hfolder : folder ∈ [named, named ++ "/"])
    (hpattern : pattern ∈ [named, named ++ "/"]) (h : ¬(folder = named ++ "/" ∧ pattern = named)) :
    relative folder pattern = "*" := by
  have hwhole : relative folder (folder ++ "") = "*" := relative_append
  have hslash : relative folder (folder ++ "/") = "*" := relative_append
  rw [String.append_empty] at hwhole
  rw [List.mem_cons, List.mem_singleton] at hfolder hpattern
  rcases hfolder with rfl | rfl <;> rcases hpattern with rfl | rfl
  · exact hwhole
  · exact hslash
  · exact absurd ⟨rfl, rfl⟩ h
  · exact hwhole

/-- Nothing is taken off a pattern that lacks the last slash of the folder. -/
theorem relative_of_lacking (hne : pattern ≠ "") (hslash : Text.startsWith "/" pattern = false) :
    relative (pattern ++ "/") pattern = pattern := by
  have hafter : Text.after? (pattern ++ "/") pattern = none := by
    rw [Option.eq_none_iff_forall_ne_some]
    intro rest hrest
    have hlength := congrArg String.length (Text.after?_eq_some.mp hrest)
    rw [String.length_append, String.length_append] at hlength
    have hone : "/".length = 1 := rfl
    omega
  rw [relative, hafter, Option.getD_none, Text.trimStart_of_not_startsWith hslash, if_neg hne]

end

variable {σ : Type} [FileStore σ] {files : σ} {patterns found : List String}
  {folder start pattern dir : String}

/-- An implied directory whose last segment begins with `start`. -/
def IsSuite (files : σ) (start dir : String) : Prop :=
  IsImplied files dir ∧ start.toList <+: (Path.fileName dir).toList

/-- The pattern, with the tests folder off its front, is one that matches the directory. -/
def Selects (folder pattern dir : String) : Prop :=
  ∃ g, Glob.parse (relative folder pattern) = .ok g ∧ Matches g dir.toList

theorem matching_eq_ok : matching files folder start pattern = .ok found ↔
    ∃ paths, FileStore.glob files (relative folder pattern) = .ok paths ∧
      paths.filter (isTestDir files start) = found := by
  unfold matching
  cases FileStore.glob files (relative folder pattern) <;> simp

theorem exists_matching_iff : (∃ found, matching files folder start pattern = .ok found) ↔
    ∃ g, Glob.parse (relative folder pattern) = .ok g := by
  simp only [matching_eq_ok, FileStore.glob_eq_ok]
  exact ⟨fun ⟨_, _, ⟨g, hg, _⟩, _⟩ => ⟨g, hg⟩, fun ⟨g, hg⟩ => ⟨_, _, ⟨g, hg, rfl⟩, rfl⟩⟩

theorem discover_eq_ok : discover files patterns folder start = .ok found ↔
    ∃ lists, List.Forall₂ (fun p list => matching files folder start p = .ok list) patterns lists ∧
      Dict.sortKeys lists.flatten = found := by
  rw [discover, Outcome.bind_pure_eq_ok]
  simp only [Outcome.mapM_eq_ok]

theorem exists_discover_iff : (∃ found, discover files patterns folder start = .ok found) ↔
    ∀ pattern ∈ patterns, ∃ g, Glob.parse (relative folder pattern) = .ok g := by
  have hmatching : ∀ pattern, (∃ found, matching files folder start pattern = .ok found) ↔
      ∃ g, Glob.parse (relative folder pattern) = .ok g := fun _ => exists_matching_iff
  simp only [discover, Outcome.bind_pure_eq_ok, ← hmatching, ← Outcome.exists_mapM_iff]
  exact ⟨fun ⟨_, lists, h, _⟩ => ⟨lists, h⟩, fun ⟨lists, h⟩ => ⟨_, lists, h, rfl⟩⟩

theorem discover_error_iff : (∃ e, discover files patterns folder start = .error e) ↔
    ∃ pattern ∈ patterns, ∃ e, Glob.parse (relative folder pattern) = .error e := by
  simp only [Outcome.exists_error_iff, exists_discover_iff, not_forall, exists_prop]

/-- The pattern alone finds the outermost of the directories, and no others. -/
def FindsOutermost (files : σ) (folder start pattern : String) : Prop :=
  ∃ found, discover files [pattern] folder start = .ok found ∧
    ∀ dir, dir ∈ found ↔ IsSuite files start dir ∧ '/' ∉ dir.toList

/-- The pattern is one that matches the outermost of the directories, and none of the others. -/
def MatchesOutermost (files : σ) (start pattern : String) : Prop :=
  ∃ g, Glob.parse pattern = .ok g ∧
    ∀ dir, IsSuite files start dir → (Matches g dir.toList ↔ '/' ∉ dir.toList)

theorem matchesOutermost_star (files : σ) (start : String) : MatchesOutermost files start "*" :=
  ⟨[.anyRun], by rfl, fun _ _ => Glob.matches_star_iff⟩

section

variable [FileStore.Lawful σ]

theorem isTestDir_iff (hdir : Path.IsFilePath dir) :
    isTestDir files start dir = true ↔ IsSuite files start dir := by
  rw [isTestDir, Bool.and_eq_true, Text.startsWith_iff, isDir_iff hdir, IsSuite, and_comm]

variable (hfiles : PathsNormal files)

include hfiles

/-- Of the files and directories that are matched, those are kept that tests lie in. -/
theorem mem_candidates : (dir ∈ FileStore.paths files ∨ dir ∈ FileStore.dirs files) ∧
    isTestDir files start dir = true ↔ IsSuite files start dir := by
  rw [mem_dirs hfiles]
  constructor
  · rintro ⟨hfile | hdir, htest⟩
    · exact (isTestDir_iff (hfiles dir hfile)).mp htest
    · exact (isTestDir_iff (hdir.isFilePath hfiles)).mp htest
  · exact fun h => ⟨.inr h.1, (isTestDir_iff (h.1.isFilePath hfiles)).mpr h⟩

theorem mem_matching (h : matching files folder start pattern = .ok found) :
    dir ∈ found ↔ IsSuite files start dir ∧ Selects folder pattern dir := by
  obtain ⟨paths, hpaths, rfl⟩ := matching_eq_ok.mp h
  obtain ⟨g, hg, rfl⟩ := FileStore.glob_eq_ok.mp hpaths
  rw [List.mem_filter, Dict.mem_sortKeys, List.mem_filter, List.mem_append, and_right_comm,
    mem_candidates hfiles, Glob.Pattern.matches, Glob.matchesList_iff]
  simp only [Selects, hg, Except.ok.injEq, exists_eq_left']

theorem mem_discover (h : discover files patterns folder start = .ok found) :
    dir ∈ found ↔ IsSuite files start dir ∧ ∃ pattern ∈ patterns, Selects folder pattern dir := by
  obtain ⟨lists, hlists, rfl⟩ := discover_eq_ok.mp h
  rw [Dict.mem_sortKeys, List.mem_flatten]
  constructor
  · rintro ⟨list, hlist, hdir⟩
    obtain ⟨pattern, hpattern, hmatching⟩ := Outcome.exists_of_mem_forall₂ hlists hlist
    obtain ⟨hsuite, hselects⟩ := (mem_matching hfiles hmatching).mp hdir
    exact ⟨hsuite, pattern, hpattern, hselects⟩
  · rintro ⟨hsuite, pattern, hpattern, hselects⟩
    obtain ⟨list, hlist, hmatching⟩ := Outcome.exists_of_mem_forall₂ hlists.flip hpattern
    exact ⟨list, hlist, (mem_matching hfiles hmatching).mpr ⟨hsuite, hselects⟩⟩

theorem findsOutermost_iff : FindsOutermost files folder start pattern ↔
    MatchesOutermost files start (relative folder pattern) := by
  constructor
  · rintro ⟨found, hfound, hall⟩
    obtain ⟨g, hg⟩ := exists_discover_iff.mp ⟨found, hfound⟩ pattern List.mem_cons_self
    refine ⟨g, hg, fun dir hsuite => ?_⟩
    have hdir := (mem_discover hfiles hfound).symm.trans (hall dir)
    simpa [hsuite, Selects, hg] using hdir
  · rintro ⟨g, hg, hall⟩
    obtain ⟨found, hfound⟩ : ∃ found, discover files [pattern] folder start = .ok found :=
      exists_discover_iff.mpr fun p hp => ⟨g, List.mem_singleton.mp hp ▸ hg⟩
    refine ⟨found, hfound, fun dir => (mem_discover hfiles hfound).trans ?_⟩
    refine and_congr_right fun hsuite => ?_
    simpa [Selects, hg] using hall dir hsuite

/-- Whatever the patterns are, the search fails exactly for one that is no pattern once the folder
is off it, and else finds in order the directories that are asked for. Of the ways to name the
tests folder, all find the outermost directories but for one: a folder that is given with a slash
is not taken off a pattern without it, which finds them only if it matches them as it stands. -/
theorem discover_finds_iff (patterns : List String) (folder start : String) :
    ((∃ e, discover files patterns folder start = .error e) ↔
      ∃ pattern ∈ patterns, ∃ e, Glob.parse (relative folder pattern) = .error e) ∧
    (∀ found, discover files patterns folder start = .ok found → found.Pairwise (· < ·) ∧
      ∀ dir, dir ∈ found ↔
        IsSuite files start dir ∧ ∃ pattern ∈ patterns, Selects folder pattern dir) ∧
    ∀ named, named ≠ "" → Text.startsWith "/" named = false →
      ∀ folder ∈ [named, named ++ "/"], ∀ pattern ∈ [named, named ++ "/"],
        FindsOutermost files folder start pattern ↔
          (folder = named ++ "/" → pattern = named → MatchesOutermost files start named) := by
  refine ⟨discover_error_iff, fun found hfound => ⟨?_, fun dir => mem_discover hfiles hfound⟩, ?_⟩
  · obtain ⟨lists, -, rfl⟩ := discover_eq_ok.mp hfound
    exact Dict.pairwise_sortKeys _
  intro named hne hslash folder hfolder pattern hpattern
  rw [findsOutermost_iff hfiles]
  by_cases hlacking : folder = named ++ "/" ∧ pattern = named
  · obtain ⟨rfl, rfl⟩ := hlacking
    rw [relative_of_lacking hne hslash]
    exact ⟨fun h _ _ => h, fun h => h rfl rfl⟩
  · rw [relative_of_naming hfolder hpattern hlacking]
    exact iff_of_true (matchesOutermost_star files start) fun h h' => absurd ⟨h, h'⟩ hlacking

end

/-- A test directory in another one, a file and a directory of one name, and a file of tests. -/
def nestedTests : FileTree :=
  .ofEntries [("test-a/main.k", .file .empty), ("test-a/test-c/main.k", .file .empty),
    ("test-b", .file .empty), ("test-b/main.k", .file .empty), ("test-d", .file .empty)]

theorem discover_finds_iff_nestedTests :
    PathsNormal nestedTests ∧
    (∃ found, discover nestedTests ["tests/**/test-c", "tests/*", "tests/test-a"] "tests/" "test-" =
        .ok found ∧ found = ["test-a", "test-a/test-c", "test-b"] ∧
      ∀ dir, dir ∈ found ↔ IsSuite nestedTests "test-" dir ∧
        ∃ pattern ∈ ["tests/**/test-c", "tests/*", "tests/test-a"], Selects "tests/" pattern dir) ∧
    (∃ e, discover nestedTests ["tests/["] "tests/" "test-" = .error e) ∧
    FindsOutermost nestedTests "tests" "test-" "tests/" ∧
    FindsOutermost nestedTests "tests/" "test-" "tests/" := by
  have hfiles : PathsNormal nestedTests := by
    unfold PathsNormal
    decide
  obtain ⟨-, hfinds, hnaming⟩ := discover_finds_iff hfiles
    ["tests/**/test-c", "tests/*", "tests/test-a"] "tests/" "test-"
  have hfound : discover nestedTests ["tests/**/test-c", "tests/*", "tests/test-a"] "tests/"
      "test-" = .ok ["test-a", "test-a/test-c", "test-b"] := by decide
  have hfails : ∃ e, discover nestedTests ["tests/["] "tests/" "test-" = .error e :=
    (discover_finds_iff hfiles ["tests/["] "tests/" "test-").1.mpr
      ⟨"tests/[", List.mem_cons_self, _, rfl⟩
  have hnamed := hnaming "tests" (by decide) (by decide)
  refine ⟨hfiles, ⟨_, hfound, rfl, (hfinds _ hfound).2⟩, hfails, ?_, ?_⟩
  · exact (hnamed "tests" (by decide) "tests/" (by decide)).mpr fun h => absurd h (by decide)
  · exact (hnamed "tests/" (by decide) "tests/" (by decide)).mpr fun _ h => absurd h (by decide)

def oneTest : FileTree := .ofEntries [("a/main.k", .file .empty)]

/-- The folder is given with a slash and the pattern without, and the one test is not found. -/
theorem discover_lacking_oneTest :
    PathsNormal oneTest ∧ IsSuite oneTest "" "a" ∧ discover oneTest ["tests"] "tests/" "" = .ok [] ∧
      ¬FindsOutermost oneTest "tests/" "" "tests" := by
  have hfiles : PathsNormal oneTest := by
    unfold PathsNormal
    decide
  have hsuite : IsSuite oneTest "" "a" :=
    ⟨⟨by decide, "a/main.k", by decide, "main.k", rfl⟩, by decide⟩
  have hnone : discover oneTest ["tests"] "tests/" "" = .ok [] := by decide
  refine ⟨hfiles, hsuite, hnone, ?_⟩
  rintro ⟨found, hfound, hall⟩
  obtain rfl := Except.ok.inj (hnone.symm.trans hfound)
  exact absurd ((hall "a").mpr ⟨hsuite, by decide⟩) List.not_mem_nil

end Suite

end ResourceModels
