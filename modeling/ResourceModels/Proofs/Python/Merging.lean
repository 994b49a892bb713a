import ResourceModels.Proofs.Python.Arrangement

/-!
# Merging the packages of kinds

The files that the generator left are moved one after the other, and then the directories get their
markers. What stands in the layout after some files were moved came from one of them, and a module
still stands where it was moved unless another kind with another module rests at the same place.
-/

namespace ResourceModels.Python

open FileStore (lookup? put paths read read_eq_ok readText readText_eq_ok isFile Lawful PathsNormal)
open ResourceModels.Path (normalizeFile IsFilePath isBelow)

/-- A file that brings no module of a kind: it has no place in the layout, or it is a shared model
at a place of its own. -/
inductive Beside (kinds : List Kind) (file : String) : Prop
  | unplaced (h : goal? "generated" "sorted" file = none)
  | shared {package module : String} (hparts : parts? "generated" file = some (package, module))
      (hshared : isShared module = true)
      (hother : ∀ k ∈ kinds, k.target ≠ Path.join "sorted" module)

/-- What the generator leaves for some kinds: the module of each one, and other files beside. -/
structure Generated {σ : Type} [FileStore σ] (files : σ) (kinds : List Kind)
    (text : Kind → String) : Prop where
  named : ∀ k ∈ kinds, k.WellNamed
  normal : PathsNormal files
  modules : ∀ k ∈ kinds, readText files k.source = .ok (text k)
  beside : ∀ file ∈ paths files, isBelow file "generated" = true →
    (∃ k ∈ kinds, file = k.source) ∨ Beside kinds file
  fresh : ∀ path ∈ paths files, isBelow path "sorted" = false

/-- No kind with another module rests where `k` does. -/
def Unrivalled (kinds : List Kind) (text : Kind → String) (k : Kind) : Prop :=
  ∀ x ∈ kinds, x.target = k.target → x.arranged (text x) = k.arranged (text k)

/-- The store after the files `done` were moved. -/
structure Moved {σ : Type} [FileStore σ] (files : σ) (kinds : List Kind) (text : Kind → String)
    (done : List String) (files' : σ) : Prop where
  normal : PathsNormal files'
  outside : ∀ path, isBelow path "sorted" = false → lookup? files' path = lookup? files path
  inside : ∀ path, isBelow path "sorted" = true → (lookup? files' path).isSome →
    ∃ file ∈ done, goal? "generated" "sorted" file = some path
  kept : ∀ k ∈ kinds, k.source ∈ done → Unrivalled kinds text k →
    readText files' k.target = .ok (k.arranged (text k))

section

variable {σ : Type} [FileStore σ] {files files' : σ} {path text : String}

theorem isBelow_append_slash {dir : String} (hdir : dir ≠ "") (rest : String) :
    isBelow (dir ++ "/" ++ rest) dir = true := by
  rw [isBelow, Path.below?_append_slash hdir, Option.isSome_some]

theorem isBelow_sorted_of_generated {file : String} (h : isBelow file "generated" = true) :
    isBelow file "sorted" = false := by
  rw [Path.isBelow_iff (by decide), Text.startsWith_iff] at h
  obtain ⟨rest, hrest⟩ := h
  rw [Bool.eq_false_iff, Ne, Path.isBelow_iff (by decide), Text.startsWith_iff]
  rintro ⟨rest', hrest'⟩
  have heads := congrArg List.head? (hrest.trans hrest'.symm)
  simp at heads

theorem goal?_of_shared {file package module : String}
    (hparts : parts? "generated" file = some (package, module)) (hshared : isShared module = true) :
    goal? "generated" "sorted" file = some (Path.join "sorted" module) := by
  rw [goal?, hparts, Option.bind_some, if_pos hshared]

end

section

variable {σ : Type} [FileStore σ] [Lawful σ] {files files' : σ} {kinds : List Kind}
  {text : Kind → String} {done : List String} {file goal : String} {k : Kind}

theorem Kind.source_ne_of_goal? (hk : k.WellNamed)
    (hgoal : goal? "generated" "sorted" file = some goal) (hne : k.target ≠ goal) :
    k.source ≠ file := by
  rintro rfl
  rw [Kind.goal?_source hk] at hgoal
  exact hne (Option.some.inj hgoal)

theorem Moved.start (h : Generated files kinds text) : Moved files kinds text [] files where
  normal := h.normal
  outside _ _ := rfl
  inside path hbelow hsome := by
    rw [← Lawful.mem_paths] at hsome
    rw [h.fresh path hsome] at hbelow
    cases hbelow
  kept _ _ hdone := absurd hdone List.not_mem_nil

/-- A file is put at its place. A module that is to rest there must be the same. -/
theorem Moved.put (h : Moved files kinds text done files') (hnamed : ∀ k ∈ kinds, k.WellNamed)
    (hgoal : goal? "generated" "sorted" file = some goal) (hpath : IsFilePath goal)
    (hbelow : isBelow goal "sorted" = true) {e : Entry}
    (he : ∀ k ∈ kinds, k.target = goal → Unrivalled kinds text k →
      Text.decode? e.contents = some (k.arranged (text k))) :
    Moved files kinds text (done ++ [file]) (FileStore.put files' goal e) where
  normal := FileStore.pathsNormal_put h.normal hpath e
  outside path houtside := by
    rw [Lawful.lookup?_put, if_neg, h.outside path houtside]
    rintro rfl
    rw [hbelow] at houtside
    cases houtside
  inside path hinside hsome := by
    rw [Lawful.lookup?_put] at hsome
    split at hsome
    · next heq => exact ⟨file, List.mem_append_right _ List.mem_cons_self, heq ▸ hgoal⟩
    · obtain ⟨other, hother, hplace⟩ := h.inside path hinside hsome
      exact ⟨other, List.mem_append_left _ hother, hplace⟩
  kept k hk hdone hsame := by
    -- the file takes the place of `k`, or `k` came with an earlier one
    by_cases htarget : k.target = goal
    · rw [htarget, readText_eq_ok hpath]
      exact ⟨e, by rw [Lawful.lookup?_put, if_pos rfl], he k hk htarget hsame⟩
    · have hearlier : k.source ∈ done := by
        refine (List.mem_append.mp hdone).resolve_right fun hmem => ?_
        exact Kind.source_ne_of_goal? (hnamed k hk) hgoal htarget (List.mem_singleton.mp hmem)
      have hlookup : lookup? (FileStore.put files' goal e) k.target = lookup? files' k.target := by
        rw [Lawful.lookup?_put, if_neg (Ne.symm htarget)]
      have hkept := h.kept k hk hearlier hsame
      rw [readText_eq_ok (hnamed k hk).isFilePath_target] at hkept ⊢
      rwa [hlookup]

omit [Lawful σ] in
/-- A file is passed over. If it is the module of a kind, the same module was there already. -/
theorem Moved.pass (h : Moved files kinds text done files')
    (hsame : ∀ k ∈ kinds, k.source = file → Unrivalled kinds text k →
      readText files' k.target = .ok (k.arranged (text k))) :
    Moved files kinds text (done ++ [file]) files' where
  normal := h.normal
  outside := h.outside
  inside path hinside hsome := by
    obtain ⟨other, hother, hplace⟩ := h.inside path hinside hsome
    exact ⟨other, List.mem_append_left _ hother, hplace⟩
  kept k hk hdone hunrivalled := by
    rcases List.mem_append.mp hdone with hmem | hmem
    · exact h.kept k hk hmem hunrivalled
    · exact hsame k hk (List.mem_singleton.mp hmem) hunrivalled

/-- A shared model is put where it belongs, unless something is there already. -/
theorem Moved.shared (h : Moved files kinds text done files') (hnamed : ∀ k ∈ kinds, k.WellNamed)
    {package module : String} (hparts : parts? "generated" file = some (package, module))
    (hshared : isShared module = true) (hmodule : IsFilePath module)
    {bytes : ByteArray} (hread : read files' file = .ok bytes)
    (hput : ∀ k ∈ kinds, k.target = Path.join "sorted" module → Unrivalled kinds text k →
      Text.decode? bytes = some (k.arranged (text k)))
    (hpass : ∀ k ∈ kinds, k.source = file → Unrivalled kinds text k →
      (lookup? files' k.target).isSome → readText files' k.target = .ok (k.arranged (text k))) :
    ∃ files'', moveFile "generated" "sorted" files' file = .ok files'' ∧
      Moved files kinds text (done ++ [file]) files'' := by
  have hgoal := goal?_of_shared hparts hshared
  have hpath : IsFilePath (Path.join "sorted" module) := Path.isFilePath_join (by decide) hmodule
  have hbelow : isBelow (Path.join "sorted" module) "sorted" = true := by
    rw [Path.join_of_ne (by decide) hmodule.2]
    exact isBelow_append_slash (by decide) module
  refine ⟨_, moveFile_shared hparts hshared (Path.normalizeFile_of_isFilePath hpath) hread, ?_⟩
  split
  · next hfile =>
    refine h.pass fun k hk hsource hunrivalled => hpass k hk hsource hunrivalled ?_
    rw [isFile_of_isFilePath hpath] at hfile
    have htarget : k.target = Path.join "sorted" module := by
      by_contra hne
      exact Kind.source_ne_of_goal? (hnamed k hk) hgoal hne hsource
    rwa [htarget]
  · exact h.put hnamed hgoal hpath hbelow hput

end

section

variable {σ : Type} [FileStore σ] [Lawful σ] {files files' : σ} {kinds : List Kind}
  {text : Kind → String} {done : List String} {file : String} {k : Kind}

theorem Generated.mem_paths_source (h : Generated files kinds text) (hk : k ∈ kinds) :
    k.source ∈ paths files := by
  obtain ⟨e, he, _⟩ := (readText_eq_ok (h.named k hk).isFilePath_source).mp (h.modules k hk)
  rw [Lawful.mem_paths, he, Option.isSome_some]

omit [Lawful σ] in
/-- What already stands at the place of a kind is its module, if every other module differs in its
place. -/
theorem Moved.readText_target (h : Moved files kinds text done files')
    (hfiles : Generated files kinds text)
    (hdone : ∀ f ∈ done, f ∈ paths files ∧ isBelow f "generated" = true) (hk : k ∈ kinds)
    (hunrivalled : Unrivalled kinds text k) (hsome : (lookup? files' k.target).isSome) :
    readText files' k.target = .ok (k.arranged (text k)) := by
  obtain ⟨f, hf, hgoal⟩ := h.inside k.target (isBelow_append_slash (by decide) _) hsome
  obtain ⟨x, hx, rfl⟩ | hbeside := hfiles.beside f (hdone f hf).1 (hdone f hf).2
  · have htarget : x.target = k.target := by
      rw [Kind.goal?_source (hfiles.named x hx)] at hgoal
      exact Option.some.inj hgoal
    have hkept := h.kept x hx hf fun y hy hyx =>
      (hunrivalled y hy (hyx.trans htarget)).trans (hunrivalled x hx htarget).symm
    rwa [htarget, hunrivalled x hx htarget] at hkept
  · cases hbeside with
    | unplaced hnone =>
      rw [hnone] at hgoal
      cases hgoal
    | shared hparts hshared hother =>
      rw [goal?_of_shared hparts hshared] at hgoal
      exact absurd (Option.some.inj hgoal).symm (hother k hk)

omit [Lawful σ] in
/-- A module that is not shared goes to its place with its imports anchored there. -/
theorem Kind.moveFile_source (hk : k.WellNamed) (hshared : isShared k.module = false)
    (htext : readText files' k.source = .ok (text k)) :
    moveFile "generated" "sorted" files' k.source =
      .ok (FileStore.put files' k.target (.file (Text.encode (k.arranged (text k))))) := by
  have hhome : k.resting = k.home := if_neg (Bool.eq_false_iff.mp hshared)
  have hpath : relocated? k.module (kindOf k.package) = some (modulePath k.resting k.version) := by
    rw [hk.kindOf_package, hk.relocated?_module, hhome]
  have hending : Text.endsWith ".py" k.target = true := by
    rw [Kind.target, modulePath, ← String.append_assoc, ← String.append_assoc]
    exact Text.endsWith_append _ ".py"
  rw [Kind.arranged, if_neg (Bool.eq_false_iff.mp hshared), ← hhome]
  refine moveFile_module hk.parts?_source hshared hpath ?_ ?_ htext
  · rwa [← Kind.target_eq_join hk]
  · rw [← Kind.target_eq_join hk]
    exact Path.normalizeFile_of_isFilePath hk.isFilePath_target

theorem Moved.step_kind (h : Moved files kinds text done files')
    (hfiles : Generated files kinds text)
    (hdone : ∀ f ∈ done, f ∈ paths files ∧ isBelow f "generated" = true) (hk : k ∈ kinds) :
    ∃ files'', moveFile "generated" "sorted" files' k.source = .ok files'' ∧
      Moved files kinds text (done ++ [k.source]) files'' := by
  have hnamed := hfiles.named k hk
  have hlookup : lookup? files' k.source = lookup? files k.source :=
    h.outside _ (isBelow_sorted_of_generated (isBelow_append_slash (by decide) _))
  obtain ⟨e, he, htext⟩ := (readText_eq_ok hnamed.isFilePath_source).mp (hfiles.modules k hk)
  rw [← hlookup] at he
  -- a kind that rests at this place has the same module
  have hsame : ∀ x ∈ kinds, x.target = k.target → Unrivalled kinds text x →
      k.arranged (text k) = x.arranged (text x) := fun x _ htarget hx => hx k hk htarget.symm
  by_cases hshared : isShared k.module = true
  · have htarget : k.target = Path.join "sorted" k.module := by
      rw [Kind.target_eq_join hnamed, Kind.resting, if_pos hshared, ← Kind.module_eq]
    have hplain : k.arranged (text k) = text k := if_pos hshared
    have hmodule : IsFilePath k.module := by
      rw [Kind.module_eq]
      exact isFilePath_modulePath k.labels_ne_nil hnamed.labels hnamed.version
    refine h.shared hfiles.named hnamed.parts?_source hshared hmodule
      ((read_eq_ok hnamed.isFilePath_source).mpr ⟨e, he, rfl⟩) ?_ ?_
    · intro x hx hplace hunrivalled
      rw [htext, ← hsame x hx (hplace.trans htarget.symm) hunrivalled, hplain]
    · intro x hx hsource hunrivalled hsome
      exact h.readText_target hfiles hdone hx hunrivalled hsome
  · have hmoved := Kind.moveFile_source hnamed (Bool.eq_false_iff.mpr hshared)
      ((readText_eq_ok hnamed.isFilePath_source).mpr ⟨e, he, htext⟩)
    refine ⟨_, hmoved, ?_⟩
    apply h.put hfiles.named (Kind.goal?_source hnamed) hnamed.isFilePath_target
      (isBelow_append_slash (by decide) _)
    intro x hx htarget hunrivalled
    simp only [Entry.file, Text.decode?_encode, hsame x hx htarget hunrivalled]

theorem Moved.step (h : Moved files kinds text done files')
    (hfiles : Generated files kinds text)
    (hdone : ∀ f ∈ done, f ∈ paths files ∧ isBelow f "generated" = true)
    (hfile : file ∈ paths files ∧ isBelow file "generated" = true) :
    ∃ files'', moveFile "generated" "sorted" files' file = .ok files'' ∧
      Moved files kinds text (done ++ [file]) files'' := by
  obtain ⟨k, hk, rfl⟩ | hbeside := hfiles.beside file hfile.1 hfile.2
  · exact h.step_kind hfiles hdone hk
  · cases hbeside with
    | unplaced hnone =>
      refine ⟨files', moveFile_of_goal?_none hnone, h.pass fun k hk hsource => ?_⟩
      rw [← hsource, Kind.goal?_source (hfiles.named k hk)] at hnone
      cases hnone
    | @shared package module hparts hshared hother =>
      obtain ⟨e, he⟩ := Option.isSome_iff_exists.mp ((Lawful.mem_paths files file).mp hfile.1)
      rw [← h.outside file (isBelow_sorted_of_generated hfile.2)] at he
      have hnormal := hfiles.normal file hfile.1
      have hread := (read_eq_ok hnormal).mpr ⟨e, he, rfl⟩
      have hmodule : IsFilePath module := by
        rw [eq_of_parts? (by decide) hparts, Path.isFilePath_append_slash,
          Path.isFilePath_append_slash] at hnormal
        exact hnormal.2.2
      refine h.shared hfiles.named hparts hshared hmodule hread ?_ ?_
      · exact fun k hk htarget => absurd htarget (hother k hk)
      · intro k hk hsource
        exact absurd hsource (Kind.source_ne_of_goal? (hfiles.named k hk)
          (goal?_of_shared hparts hshared) (hother k hk))

theorem Moved.run (h : Moved files kinds text done files') (hfiles : Generated files kinds text)
    {rest : List String} (hdone : ∀ f ∈ done, f ∈ paths files ∧ isBelow f "generated" = true)
    (hrest : ∀ f ∈ rest, f ∈ paths files ∧ isBelow f "generated" = true) :
    ∃ files'', rest.foldlM (moveFile "generated" "sorted") files' = .ok files'' ∧
      Moved files kinds text (done ++ rest) files'' := by
  induction rest generalizing done files' with
  | nil => exact ⟨files', rfl, by rwa [List.append_nil]⟩
  | cons file rest ih =>
    obtain ⟨hfile, hrest⟩ := List.forall_mem_cons.mp hrest
    obtain ⟨files₁, hmove, hmoved⟩ := h.step hfiles hdone hfile
    have hdone₁ : ∀ f ∈ done ++ [file], f ∈ paths files ∧ isBelow f "generated" = true := by
      intro f hf
      rcases List.mem_append.mp hf with hf | hf
      · exact hdone f hf
      · exact List.mem_singleton.mp hf ▸ hfile
    obtain ⟨files₂, hrun, hend⟩ := ih hmoved hdone₁ hrest
    refine ⟨files₂, ?_, by rwa [List.append_assoc] at hend⟩
    rw [List.foldlM_cons, hmove]
    exact hrun

/-- The packages can be merged, and a module without a rival stands where its kind rests. -/
theorem exists_arrange (h : Generated files kinds text) :
    ∃ files', arrange files "generated" "sorted" = .ok files' ∧
      ∀ k ∈ kinds, Unrivalled kinds text k →
        readText files' k.target = .ok (k.arranged (text k)) := by
  have hunder : ∀ f, f ∈ (paths files).filter (isBelow · "generated") ↔
      f ∈ paths files ∧ isBelow f "generated" = true := fun f => List.mem_filter
  obtain ⟨files₁, hrun, hmoved⟩ := (Moved.start h).run h
    (fun f hf => absurd hf List.not_mem_nil) fun f => (hunder f).mp
  have hpackages : ∀ dir ∈ packages files₁ "sorted", IsFilePath dir := fun dir hdir =>
    FileStore.isFilePath_of_mem_dirs hmoved.normal (List.mem_of_mem_filter hdir)
  obtain ⟨files₂, hmark, hkept⟩ := exists_foldlM_mark hpackages files₁
  have hlist : FileStore.filesUnder files "generated" =
      .ok ((paths files).filter (isBelow · "generated")) := by
    have hkey : Path.normalize "generated" = .ok "generated" := by decide
    rw [FileStore.filesUnder, hkey]
    rfl
  refine ⟨files₂, ?_, fun k hk hunrivalled => ?_⟩
  · rw [arrange, hlist]
    change ((paths files).filter (isBelow · "generated")).foldlM (moveFile "generated" "sorted")
      files >>= _ = _
    rw [hrun]
    exact hmark
  · have hread := hmoved.kept k hk ?_ hunrivalled
    · have hpath := (h.named k hk).isFilePath_target
      obtain ⟨e, he, htext⟩ := (readText_eq_ok hpath).mp hread
      refine (readText_eq_ok hpath).mpr ⟨e, ?_, htext⟩
      rw [hkept _ (by rw [he, Option.isSome_some]), he]
    · rw [List.nil_append, hunder]
      exact ⟨h.mem_paths_source hk, isBelow_append_slash (by decide) _⟩

theorem arrange_keepsModules_iff (h : Generated files kinds text) :
    (∀ x y : Kind, x.WellNamed → y.WellNamed →
      (relocated? x.module x.name = relocated? y.module y.name ↔
        x = y ∨ x.Inside y ∨ y.Inside x)) ∧
    ∃ files', arrange files "generated" "sorted" = .ok files' ∧
      ((∀ k ∈ kinds, readText files' k.target = .ok (k.arranged (text k))) ↔
        ∀ x ∈ kinds, ∀ y ∈ kinds, x.arranged (text x) ≠ y.arranged (text y) → x.Apart y) := by
  refine ⟨fun x y => Kind.relocated?_eq_iff, ?_⟩
  obtain ⟨files', harrange, hkept⟩ := exists_arrange h
  refine ⟨files', harrange, ?_, ?_⟩
  · intro hall x hx y hy hdiffer
    by_contra htogether
    have htarget := (Kind.target_eq_iff (h.named x hx) (h.named y hy)).mpr htogether
    have hread := hall x hx
    rw [htarget, hall y hy] at hread
    exact hdiffer (Except.ok.inj hread).symm
  · intro hapart k hk
    refine hkept k hk fun x hx htarget => ?_
    by_contra hdiffer
    exact (Kind.target_eq_iff (h.named x hx) (h.named k hk)).mp htarget (hapart x hx k hk hdiffer)

end

/-- A kind, and one of the same name in the group that stands below its name. -/
def nestedKinds : List Kind := [⟨"a.b", "v1", "foo"⟩, ⟨"foo.a.b", "v1", "foo"⟩]

def groupNote (k : Kind) : String := "# " ++ k.group

def nestedFiles : FileTree :=
  .ofEntries (nestedKinds.map fun k => (k.source, FileTree.textEntry (groupNote k)))

instance (k : Kind) : Decidable k.WellNamed :=
  decidable_of_iff ((∀ label ∈ k.labels, IsLabel label) ∧ IsLabel k.version ∧ IsLabel k.name)
    ⟨fun h => ⟨h.1, h.2.1, h.2.2⟩, fun h => ⟨h.labels, h.version, h.name⟩⟩

theorem paths_nestedFiles : paths nestedFiles = nestedKinds.map (·.source) := by
  decide

theorem nestedFiles_generated : Generated nestedFiles nestedKinds groupNote where
  named := by decide
  normal := by
    rw [PathsNormal, paths_nestedFiles]
    decide
  modules := by decide
  beside := by
    intro file hfile _
    rw [paths_nestedFiles] at hfile
    obtain ⟨k, hk, rfl⟩ := List.mem_map.mp hfile
    exact .inl ⟨k, hk, rfl⟩
  fresh := by
    rw [paths_nestedFiles]
    decide

theorem nestedFiles_keepsModules_iff :
    (∀ x ∈ nestedKinds, ∀ y ∈ nestedKinds,
      (relocated? x.module x.name = relocated? y.module y.name ↔
        x = y ∨ x.Inside y ∨ y.Inside x)) ∧
    ∃ files', arrange nestedFiles "generated" "sorted" = .ok files' ∧
      ((∀ k ∈ nestedKinds, readText files' k.target = .ok (k.arranged (groupNote k))) ↔
        ∀ x ∈ nestedKinds, ∀ y ∈ nestedKinds,
          x.arranged (groupNote x) ≠ y.arranged (groupNote y) → x.Apart y) := by
  obtain ⟨hplace, hkept⟩ := arrange_keepsModules_iff nestedFiles_generated
  exact ⟨fun x hx y hy => hplace x y (nestedFiles_generated.named x hx)
    (nestedFiles_generated.named y hy), hkept⟩

/-- The places and the texts of the modules after the packages were merged. -/
def mergedModules (kinds : List Kind) : Except LayoutError FileTree → List (Option String)
  | .ok files => kinds.map fun k => (readText files k.target).toOption
  | .error _ => []

/-- The module of the first kind is lost, and the second one stands in its place. -/
theorem nestedFiles_overwritten :
    (∀ k ∈ nestedKinds, k.WellNamed) ∧ nestedKinds.Nodup ∧
      (nestedKinds.map fun k => relocated? k.module k.name) =
        [some "b/a/foo/v1.py", some "b/a/foo/v1.py"] ∧
      mergedModules nestedKinds (arrange nestedFiles "generated" "sorted") =
        [some "# foo.a.b", some "# foo.a.b"] := by
  refine ⟨by decide, by decide, by decide, by decide +kernel⟩

end ResourceModels.Python
