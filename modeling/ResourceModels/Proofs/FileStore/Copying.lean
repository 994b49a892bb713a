import Mathlib.Data.Set.Card
import ResourceModels.Proofs.FileStore.Edits
import ResourceModels.Proofs.FileTree
import ResourceModels.Proofs.Overlay
import ResourceModels.Proofs.Path.Directory
import ResourceModels.Proofs.Stores

/-!
# Copied directories

Each file below a directory is copied to its path from there below another one, and whatever is not
written over stays. The part of a tree below a directory holds the files there by their paths from
it, so copied back it is those files again, and a part of a part is the part below both directories.
-/

namespace ResourceModels.Path

/-- A path that leads on from a directory. -/
def Within (path dir : String) : Prop := ∃ rest, rest ≠ "" ∧ path = join dir rest

/-- What is read on from a directory, as text. -/
def onward (dir rest : String) : String := if dir = "" then rest else dir ++ "/" ++ rest

variable {path dir dir' rest rest' key key' : String}

theorem below?_eq_some : below? path dir = some rest ↔ path = onward dir rest := by
  unfold below? onward
  split
  · exact Option.some_inj
  · exact Text.after?_eq_some

theorem onward_of_ne (h : rest ≠ "") : onward dir rest = join dir rest := by
  rw [onward, join, if_neg h]

theorem onward_onward (dir dir' rest : String) :
    onward dir (onward dir' rest) = onward (join dir dir') rest := by
  by_cases hdir : dir = ""
  · simp [onward, join, hdir]
  · by_cases hdir' : dir' = ""
    · simp [onward, join, hdir, hdir']
    · simp [onward, join, hdir, hdir', String.append_eq_empty_iff, String.append_assoc]

theorem onward_inj : onward dir rest = onward dir rest' ↔ rest = rest' := by
  unfold onward
  split
  · rfl
  · exact String.append_right_inj _

theorem join_inj (h : rest ≠ "") (h' : rest' ≠ "") :
    join dir rest = join dir rest' ↔ rest = rest' := by
  rw [← onward_of_ne h, ← onward_of_ne h', onward_inj]

/-- A path in normal form does not end at the directory that it is read on from. -/
theorem ne_empty_of_onward (h : IsFilePath (onward dir rest)) : rest ≠ "" :=
  (isFilePath_below? h (below?_eq_some.mpr rfl)).2

theorem isBelow_iff_within (h : IsFilePath path) : isBelow path dir = true ↔ Within path dir := by
  rw [isBelow, Option.isSome_iff_exists]
  refine exists_congr fun rest => ?_
  rw [below?_eq_some]
  constructor
  · rintro rfl
    have hne := ne_empty_of_onward h
    exact ⟨hne, onward_of_ne hne⟩
  · rintro ⟨hne, rfl⟩
    exact (onward_of_ne hne).symm

/-- Where the segments of a path do not climb, they stay after whatever was kept before. -/
theorem resolve_append_kept {inner pieces segs : List String} (h : resolve inner pieces = some segs)
    (kept : List String) : resolve (inner ++ kept) pieces = some (kept.reverse ++ segs) := by
  induction pieces generalizing inner with
  | nil =>
    cases h
    simp [resolve]
  | cons segment rest ih =>
    simp only [resolve] at h ⊢
    split at h
    · next hskip =>
      rw [if_pos hskip]
      exact ih h
    next hkeep =>
    rw [if_neg hkeep]
    split at h
    · next hclimb =>
      rw [if_pos hclimb]
      cases inner with
      | nil => cases h
      | cons last inner => exact ih h
    · next hdown =>
      rw [if_neg hdown]
      exact ih h

/-- Paths that are put one after the other have the joined normal forms. -/
theorem normalize_append_slash_eq_join (h : normalize path = .ok key)
    (h' : normalize rest = .ok key') : normalize (path ++ "/" ++ rest) = .ok (join key key') := by
  rw [normalize_eq_ok] at h h' ⊢
  obtain ⟨segs, hsegs, rfl⟩ := Option.map_eq_some_iff.mp h
  obtain ⟨segs', hsegs', rfl⟩ := Option.map_eq_some_iff.mp h'
  have hall : resolve [] (segments (path ++ "/" ++ rest)) = some (segs ++ segs') := by
    rw [segments_append_slash, resolve_append, hsegs, Option.bind_some]
    have hkept := resolve_append_kept hsegs' segs.reverse
    rwa [List.nil_append, List.reverse_reverse] at hkept
  rw [normalize?, hall, Option.map_some, Option.some_inj]
  by_cases hempty : segs = []
  · rw [hempty]
    rfl
  by_cases hempty' : segs' = []
  · rw [hempty', List.append_nil]
    exact (join_empty _).symm
  have hne : ∀ {path segs}, resolve [] (segments path) = some segs → segs ≠ [] →
      Text.join "/" segs ≠ "" := by
    intro path segs hsegs hempty
    obtain ⟨first, more, rfl⟩ := List.exists_cons_of_ne_nil hempty
    have hplain := (mem_of_resolve hsegs List.mem_cons_self).resolve_left List.not_mem_nil
    exact Text.join_ne_empty "/" hplain.2.1 more
  rw [Text.join_append "/" hempty hempty', join_of_ne (hne hsegs hempty) (hne hsegs' hempty')]

end ResourceModels.Path

/-!
## What a copy holds

Different files are copied to different paths, so each stands where it was copied to.
-/

namespace ResourceModels.FileStore

open ResourceModels.Path (IsFilePath IsNormal Within below? join onward)

section

variable {σ τ : Type} [FileStore σ] [FileStore τ] {src : σ} {dst : τ}
  {source target path path' rest file : String} {files : List String} {e : Entry}

theorem copyFiles_cons_of_some (hrest : below? file source = some rest)
    (he : lookup? src file = some e) : copyFiles src source dst target (file :: files) =
      ((copyFiles src source (put dst (join target rest) e) target files).1,
        (copyFiles src source (put dst (join target rest) e) target files).2 + 1) := by
  simp only [copyFiles, hrest, he]

theorem length_of_copyFiles (h : ∀ file ∈ files,
    Path.isBelow file source = true ∧ (lookup? src file).isSome) :
    (copyFiles src source dst target files).2 = files.length := by
  induction files generalizing dst with
  | nil => rfl
  | cons file files ih =>
    obtain ⟨⟨hbelow, hfile⟩, hfiles⟩ := List.forall_mem_cons.mp h
    obtain ⟨rest, hrest⟩ := Option.isSome_iff_exists.mp hbelow
    obtain ⟨e, he⟩ := Option.isSome_iff_exists.mp hfile
    rw [copyFiles_cons_of_some hrest he, ih hfiles, List.length_cons]

theorem copyDir_of_normalize (hsource : normalize path = .ok source)
    (htarget : normalize path' = .ok target) (src : σ) (dst : τ) :
    copyDir src path dst path' =
      .ok (copyFiles src source dst target ((paths src).filter (Path.isBelow · source))) := by
  have hsame : copyDir src path dst path' = copyDir src source dst target := by
    simp only [copyDir, hsource, htarget,
      Path.normalize_eq_ok.mpr (Path.isNormal_of_normalize hsource),
      Path.normalize_eq_ok.mpr (Path.isNormal_of_normalize htarget), bind, Except.bind]
  rw [hsame, copyDir_eq (Path.isNormal_of_normalize hsource) (Path.isNormal_of_normalize htarget)]

variable [Lawful τ]

theorem lookup?_copyFiles_of_ne (h : ∀ file ∈ files, ∀ rest,
    below? file source = some rest → (lookup? src file).isSome → join target rest ≠ path) :
    lookup? (copyFiles src source dst target files).1 path = lookup? dst path := by
  induction files generalizing dst with
  | nil => rfl
  | cons file files ih =>
    obtain ⟨hfile, hfiles⟩ := List.forall_mem_cons.mp h
    simp only [copyFiles]
    split
    · next rest e hrest he =>
      rw [ih hfiles, Lawful.lookup?_put, if_neg (hfile rest hrest (by rw [he]; rfl))]
    · exact ih hfiles

/-- The file that is copied to a path stays there: no other one is copied to it. -/
theorem lookup?_copyFiles_of_mem (hfiles : ∀ file ∈ files, IsFilePath file) (hfile : file ∈ files)
    (hrest : below? file source = some rest) (he : lookup? src file = some e) :
    lookup? (copyFiles src source dst target files).1 (join target rest) = some e := by
  induction files generalizing dst with
  | nil => cases hfile
  | cons first files ih =>
    obtain ⟨hfirst, hothers⟩ := List.forall_mem_cons.mp hfiles
    by_cases hlater : file ∈ files
    · simp only [copyFiles]
      split
      · exact ih hothers hlater
      · exact ih hothers hlater
    · obtain rfl := (List.mem_cons.mp hfile).resolve_right hlater
      rw [copyFiles_cons_of_some hrest he, lookup?_copyFiles_of_ne, Lawful.lookup?_put, if_pos rfl]
      intro other hother more hmore _ hsame
      rw [Path.below?_eq_some] at hrest hmore
      have hne := Path.ne_empty_of_onward (hrest ▸ hfirst)
      have hne' := Path.ne_empty_of_onward (hmore ▸ hothers other hother)
      obtain rfl := (Path.join_inj hne' hne).mp hsame
      exact hlater (hrest ▸ hmore ▸ hother)

/-- A store after the files below one directory of another store were copied below a directory. -/
structure Copied (src : σ) (source : String) (dst : τ) (target : String) (copy : τ)
    (count : Nat) : Prop where
  moved : ∀ rest e, rest ≠ "" → lookup? src (join source rest) = some e →
    lookup? copy (join target rest) = some e
  kept : ∀ path, (∀ rest, rest ≠ "" → path = join target rest →
    lookup? src (join source rest) = none) → lookup? copy path = lookup? dst path
  count : count = {path | (lookup? src path).isSome ∧ Within path source}.ncard

variable [Lawful σ]

theorem copied_copyFiles (hsrc : PathsNormal src) (source : String) (dst : τ) (target : String) :
    Copied src source dst target
      (copyFiles src source dst target ((paths src).filter (Path.isBelow · source))).1
      (copyFiles src source dst target ((paths src).filter (Path.isBelow · source))).2 := by
  have hfile : ∀ file ∈ (paths src).filter (Path.isBelow · source), IsFilePath file :=
    fun file hfile => hsrc file (List.mem_filter.mp hfile).1
  have hmem : ∀ {rest}, rest ≠ "" → (lookup? src (join source rest)).isSome →
      join source rest ∈ (paths src).filter (Path.isBelow · source) ∧
        below? (join source rest) source = some rest := by
    intro rest hne hsome
    have hbelow : below? (join source rest) source = some rest :=
      Path.below?_eq_some.mpr (Path.onward_of_ne hne).symm
    refine ⟨List.mem_filter.mpr ⟨(Lawful.mem_paths src _).mpr hsome, ?_⟩, hbelow⟩
    rw [Path.isBelow, hbelow]
    rfl
  refine ⟨fun rest e hne he => ?_, fun path hpath => ?_, ?_⟩
  · obtain ⟨hin, hbelow⟩ := hmem hne (by rw [he]; rfl)
    exact lookup?_copyFiles_of_mem hfile hin hbelow he
  · refine lookup?_copyFiles_of_ne fun file hin rest hrest hsome hsame => ?_
    rw [Path.below?_eq_some] at hrest
    have hne := Path.ne_empty_of_onward (hrest ▸ hfile file hin)
    rw [Path.onward_of_ne hne] at hrest
    rw [hrest, hpath rest hne hsame.symm] at hsome
    cases hsome
  · have hset : {path | (lookup? src path).isSome ∧ Within path source} =
        (((paths src).filter (Path.isBelow · source)).toFinset : Set String) := by
      ext path
      rw [Set.mem_ofPred_eq, List.coe_toFinset, Set.mem_ofPred_eq, List.mem_filter,
        ← Lawful.mem_paths]
      exact and_congr_right fun hpath => (Path.isBelow_iff_within (hsrc path hpath)).symm
    have hnodup : ((paths src).filter (Path.isBelow · source)).Nodup :=
      ((Lawful.paths_pairwise src).imp fun hlt => ne_of_lt hlt).filter _
    rw [hset, Set.ncard_coe_finset, List.toFinset_card_of_nodup hnodup]
    refine length_of_copyFiles fun file hin => ?_
    obtain ⟨hpath, hbelow⟩ := List.mem_filter.mp hin
    exact ⟨hbelow, (Lawful.mem_paths src file).mp hpath⟩

end

/-!
## Parts of a tree

The part below a directory is asked for a file as the tree is asked for it from the directory on.
-/

section

variable {t part : FileTree} {path path' dir dir' : String}

theorem get?_below {entries : Dict Entry} (dir rest : String) :
    Dict.get? (entries.filterMap fun pair =>
        (below? pair.1 dir).map fun rest => (rest, pair.2)) rest =
      Dict.get? entries (Path.onward dir rest) := by
  induction entries with
  | nil => rfl
  | cons pair entries ih =>
    obtain ⟨key, e⟩ := pair
    cases hbelow : below? key dir with
    | none =>
      have hkey : key ≠ Path.onward dir rest := fun h => by
        rw [Path.below?_eq_some.mpr h] at hbelow
        cases hbelow
      simp only [List.filterMap_cons, hbelow, Option.map_none, Dict.get?, if_neg hkey, ih]
    | some first =>
      obtain rfl := Path.below?_eq_some.mp hbelow
      simp only [List.filterMap_cons, hbelow, Option.map_some, Dict.get?, Path.onward_inj, ih]

theorem nodup_below {entries : Dict Entry} (h : Dict.Sorted entries) (dir : String) :
    ((entries.filterMap fun pair =>
      (below? pair.1 dir).map fun rest => (rest, pair.2)).map (·.1)).Nodup := by
  have hkeys : (entries.filterMap fun pair =>
      (below? pair.1 dir).map fun rest => (rest, pair.2)).map (·.1) =
        (Dict.keys entries).filterMap (below? · dir) := by
    rw [List.map_filterMap, Dict.keys, List.filterMap_map]
    refine List.filterMap_congr fun pair _ => ?_
    simp only [Option.map_map, Function.comp_def, Option.map_id']
  rw [hkeys]
  refine h.keys_nodup.filterMap fun key key' rest hkey hkey' => ?_
  rw [Path.below?_eq_some.mp hkey, Path.below?_eq_some.mp hkey']

theorem exists_subtree (h : normalize path = .ok dir) (t : FileTree) :
    ∃ part, t.subtree path = .ok part ∧
      ∀ rest, lookup? part rest = lookup? t (Path.onward dir rest) := by
  refine ⟨_, by rw [FileTree.subtree, h]; rfl, fun rest => ?_⟩
  exact (Dict.get?_ofList_of_nodup (nodup_below t.sorted dir) rest).trans (get?_below dir rest)

theorem subtree_subtree (h : normalize path = .ok dir) (h' : normalize path' = .ok dir')
    (t : FileTree) : ∃ whole, t.subtree (path ++ "/" ++ path') = .ok whole ∧
      (t.subtree path).bind (·.subtree path') = .ok whole := by
  obtain ⟨whole, hwhole, hfiles⟩ := exists_subtree (Path.normalize_append_slash_eq_join h h') t
  obtain ⟨outer, houter, hfiles'⟩ := exists_subtree h t
  obtain ⟨inner, hinner, hfiles''⟩ := exists_subtree h' outer
  refine ⟨whole, hwhole, ?_⟩
  rw [houter, Except.bind, hinner, Except.ok.injEq]
  refine FileTree.ext_lookup? fun rest => ?_
  rw [hfiles'', hfiles', hfiles, Path.onward_onward]

/-- The part of a tree, copied back to where it was, is made of the files of the tree there. -/
theorem copy_subtree (ht : PathsNormal t) (h : normalize path = .ok dir) :
    ∃ part copy count, t.subtree path = .ok part ∧
      copyDir part "" (∅ : FileTree) path = .ok (copy, count) ∧
      ∀ key, (Within key dir → lookup? copy key = lookup? t key) ∧
        (¬Within key dir → lookup? copy key = none) := by
  obtain ⟨part, hpart, hfiles⟩ := exists_subtree h t
  have hroot : normalize "" = .ok "" := by decide
  have hcopied := copied_copyFiles (Store.pathsNormal_subtree ht hpart) "" (∅ : FileTree) dir
  refine ⟨part, _, _, hpart, copyDir_of_normalize hroot h part ∅, fun key => ⟨?_, fun hout => ?_⟩⟩
  · rintro ⟨rest, hne, rfl⟩
    have hrest : lookup? part rest = lookup? t (join dir rest) := by
      rw [hfiles, Path.onward_of_ne hne]
    cases hfound : lookup? t (join dir rest) with
    | some e => exact hcopied.moved rest e hne (hrest.trans hfound)
    | none =>
      refine (hcopied.kept _ fun other hother hsame => ?_).trans rfl
      rw [← (Path.join_inj hne hother).mp hsame]
      exact hrest.trans hfound
  · exact (hcopied.kept key fun rest hne hsame => absurd ⟨rest, hne, hsame⟩ hout).trans rfl

/-- Between directories copying does not fail: it copies the files below the one to below the other,
leaves all other files, and tells how many it copied. For a tree it follows that the part below a
directory is copied back to what the tree holds there, and that parts are taken of parts. -/
theorem copyDir_copies {σ τ : Type} [FileStore σ] [FileStore τ] [Lawful σ] [Lawful τ] {src : σ}
    (hsrc : PathsNormal src) (dst : τ) {source target : String} (h : normalize path = .ok source)
    (h' : normalize path' = .ok target) :
    (∃ copy count, copyDir src path dst path' = .ok (copy, count) ∧
      Copied src source dst target copy count) ∧
    ∀ t : FileTree, PathsNormal t →
      (∃ part copy count, t.subtree path = .ok part ∧
        copyDir part "" (∅ : FileTree) path = .ok (copy, count) ∧
        ∀ key, (Within key source → lookup? copy key = lookup? t key) ∧
          (¬Within key source → lookup? copy key = none)) ∧
      ∃ whole, t.subtree (path ++ "/" ++ path') = .ok whole ∧
        (t.subtree path).bind (·.subtree path') = .ok whole :=
  ⟨⟨_, _, copyDir_of_normalize h h' src dst, copied_copyFiles hsrc source dst target⟩,
    fun t ht => ⟨copy_subtree ht h, subtree_subtree h h' t⟩⟩

end

/-- A name is that of a file and of a directory, and begins the name of another directory. -/
def overlapping : FileTree :=
  .ofEntries [("models/a", .file .empty), ("models/a/b", .link "c"), ("models/gone", .file .empty),
    ("modelsx/c", .file .empty)]

/-- A view of the tree in which a file is gone. -/
def withoutFile : Overlay := drop (.ofBase overlapping) "models/gone"

theorem copyDir_copies_withoutFile :
    (PathsNormal withoutFile ∧ PathsNormal overlapping ∧ normalize "./models" = .ok "models" ∧
      normalize "a/" = .ok "a") ∧
    (∃ copy, copyDir withoutFile "./models" (put (∅ : FileTree) "a/old" (.link "x")) "a/" =
        .ok (copy, 2) ∧ lookup? copy "a/a/b" = some (.link "c") ∧
      lookup? copy "a/old" = some (.link "x")) ∧
    ∃ whole, overlapping.subtree ("./models" ++ "/" ++ "a/") = .ok whole ∧
      (overlapping.subtree "./models").bind (·.subtree "a/") = .ok whole := by
  have hview : PathsNormal withoutFile := by
    unfold PathsNormal
    decide
  have htree : PathsNormal overlapping := by
    unfold PathsNormal
    decide
  have hsource : normalize "./models" = .ok "models" := by decide
  have htarget : normalize "a/" = .ok "a" := by decide
  obtain ⟨⟨copy, count, hcopy, hcopied⟩, hparts⟩ :=
    copyDir_copies hview (put (∅ : FileTree) "a/old" (.link "x")) hsource htarget
  have hcount : ((copyDir withoutFile "./models" (put (∅ : FileTree) "a/old" (.link "x")) "a/").map
      (·.2)) = .ok 2 := by decide
  rw [hcopy] at hcount
  obtain rfl : count = 2 := Except.ok.inj hcount
  refine ⟨⟨hview, htree, hsource, htarget⟩, ⟨copy, hcopy, ?_, ?_⟩, (hparts overlapping htree).2⟩
  · exact hcopied.moved "a/b" (.link "c") (by decide) (by decide)
  · refine (hcopied.kept "a/old" fun rest hne hsame => ?_).trans (by decide)
    have hname : join "a" rest = join "a" "old" := hsame.symm.trans (by decide)
    obtain rfl := (Path.join_inj hne (by decide)).mp hname
    decide

end ResourceModels.FileStore
