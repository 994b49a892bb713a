import ResourceModels.Proofs.FileStore.Edits
import ResourceModels.Proofs.Path.Directory
import ResourceModels.Proofs.Python.Merging

/-!
# Where moved modules come to stand

The kind of a package is any text without separators, so it may be empty or lead up. A module still
comes to stand below the target, under its own name, which is no marker. What is put there does not
depend on the layout, and a shared model is put only where no file is.
-/

namespace ResourceModels.Python

open FileStore (Put lookup? put paths dirs Lawful PathsNormal)
open ResourceModels.Path (Apart IsFilePath isBelow join normalizeFile fileName)

section

variable {source target file package module kind path dir name : String}

theorem exists_key_of_name (htarget : IsFilePath target) (hdir : IsFilePath dir)
    (hname : IsFilePath name) (hslash : '/' ∉ name.toList) :
    ∃ key, normalizeFile (join target (join dir name)) = .ok key ∧ isBelow key target = true ∧
      fileName key = name := by
  have hplace : IsFilePath (join dir name) := Path.isFilePath_join hdir.1 hname
  refine ⟨join target (join dir name),
    Path.normalizeFile_of_isFilePath (Path.isFilePath_join htarget.1 hplace),
    Path.isBelow_join htarget.2 hplace.2, ?_⟩
  rw [Path.join_of_ne htarget.2 hplace.2, Path.join_of_ne hdir.2 hname.2, ← String.append_assoc,
    ← String.append_assoc, Path.fileName_append_slash hslash]

theorem segments_join_kind (htarget : IsFilePath target) (hdir : IsFilePath dir)
    (hname : IsFilePath name) (hslash : '/' ∉ name.toList)
    (hkind : ∀ c ∈ kind.toList, Path.isSeparator c = false) (hne : kind ≠ "") :
    Path.segments (join target (join (join dir kind) name)) =
      (Path.segments target ++ Path.segments dir ++ [kind]) ++ [name] := by
  have hwhole : join target (join (join dir kind) name) =
      target ++ "/" ++ dir ++ "/" ++ kind ++ "/" ++ name := by
    rw [Path.join_of_ne hdir.2 hne, Path.join_of_ne (by simp [String.append_eq_empty_iff]) hname.2,
      Path.join_of_ne htarget.2 (by simp [String.append_eq_empty_iff])]
    simp only [String.append_assoc]
  rw [hwhole, Path.segments_append_slash, Path.segments_append_slash, Path.segments_append_slash,
    Path.segments_of_noSlash hname hslash, Path.segments_of_noSeparator hkind]

/-- The kind may lead up by one directory, but that is one below the target. -/
theorem exists_key_of_kind (htarget : IsFilePath target) (hdir : IsFilePath dir)
    (hname : IsFilePath name) (hslash : '/' ∉ name.toList)
    (hkind : ∀ c ∈ kind.toList, Path.isSeparator c = false) :
    ∃ key, normalizeFile (join target (join (join dir kind) name)) = .ok key ∧
      isBelow key target = true ∧ fileName key = name := by
  by_cases hempty : kind = ""
  · rw [hempty, Path.join_empty]
    exact exists_key_of_name htarget hdir hname hslash
  have hsegments := segments_join_kind htarget hdir hname hslash hkind hempty
  obtain ⟨htarget_plain, htarget_slash⟩ := Path.isFilePath_iff.mp htarget
  obtain ⟨more, hmore⟩ : ∃ more, Path.resolve (Path.segments target ++ Path.segments dir).reverse
      [kind] = some (Path.segments target ++ more) :=
    Path.exists_resolve_singleton (Path.segments_ne_nil dir) kind
  have hdirs : ∀ s ∈ Path.segments target ++ Path.segments dir, Path.IsPlain s := fun s hs =>
    (List.mem_append.mp hs).elim (htarget_plain s) ((Path.isFilePath_iff.mp hdir).1 s)
  have hplain : Path.IsPlain name := (Path.isFilePath_iff.mp hname).1 name (by
    rw [Path.segments_of_noSlash hname hslash]
    exact List.mem_singleton_self name)
  have hresolve : Path.normalize? (join target (join (join dir kind) name)) =
      some (Text.join "/" (Path.segments target ++ more ++ [name])) := by
    rw [Path.normalize?, hsegments, Path.resolve_concat hplain, Path.resolve_append,
      Path.resolve_of_plain hdirs, Option.bind_some, List.reverse_nil, List.nil_append, hmore]
    rfl
  have hbelow : Text.join "/" (Path.segments target ++ more ++ [name]) =
      target ++ "/" ++ Text.join "/" (more ++ [name]) := by
    rw [List.append_assoc, Text.join_append "/" (Path.segments_ne_nil target) (by simp),
      Path.join_segments htarget_slash]
  refine ⟨_, Path.normalizeFile_eq_ok.mpr ⟨hresolve, ?_⟩, ?_, Path.fileName_join_concat hslash⟩
  · rw [hbelow]
    simp [String.append_eq_empty_iff]
  · rw [hbelow]
    exact (Path.isBelow_iff_exists htarget.2).mpr ⟨_, rfl⟩

theorem exists_key_of_relocated (htarget : IsFilePath target) (hmodule : IsFilePath module)
    (hkind : ∀ c ∈ kind.toList, Path.isSeparator c = false)
    (h : relocated? module kind = some path) :
    ∃ key, normalizeFile (join target path) = .ok key ∧ isBelow key target = true ∧
      fileName key ≠ marker := by
  unfold relocated? at h
  dsimp only at h
  split at h
  · cases h
  next hkeep =>
  obtain ⟨hdir, hmarker⟩ := not_or.mp hkeep
  obtain ⟨hmodule_eq, hslash⟩ := Path.eq_parent_append hdir
  obtain ⟨hparent, hname⟩ := Path.isFilePath_append_slash.mp (hmodule_eq ▸ hmodule)
  have hjoin : join (Path.parent module) (fileName module) = module := by
    rw [Path.join_of_ne hdir hname.2, ← hmodule_eq]
  split at h
  · cases h
    obtain ⟨key, hkey, hbelow, hfile⟩ := exists_key_of_name htarget hparent hname hslash
    exact ⟨key, hjoin ▸ hkey, hbelow, hfile ▸ hmarker⟩
  · cases h
    obtain ⟨key, hkey, hbelow, hfile⟩ := exists_key_of_kind htarget hparent hname hslash hkind
    exact ⟨key, hkey, hbelow, hfile ▸ hmarker⟩

theorem isFilePath_of_parts? (hsource : source ≠ "") (hfile : IsFilePath file)
    (hparts : parts? source file = some (package, module)) :
    IsFilePath package ∧ IsFilePath module := by
  rw [eq_of_parts? hsource hparts, Path.isFilePath_append_slash,
    Path.isFilePath_append_slash] at hfile
  exact hfile.2

theorem isBelow_of_parts? (hsource : source ≠ "")
    (hparts : parts? source file = some (package, module)) : isBelow file source = true :=
  (Path.isBelow_iff_exists hsource).mpr ⟨_, eq_of_parts? hsource hparts⟩

theorem mem_of_mem_kindOf {c : Char} (h : c ∈ (kindOf package).toList) : c ∈ package.toList := by
  unfold kindOf at h
  split at h
  · next before kind hcut =>
    rw [(Text.splitLast?_eq_some.mp hcut).1]
    simp [h]
  · exact h

theorem noSeparator_kindOf (hsource : source ≠ "") (hfile : IsFilePath file)
    (hparts : parts? source file = some (package, module)) :
    ∀ c ∈ (kindOf package).toList, Path.isSeparator c = false := by
  have hpackage := isFilePath_of_parts? hsource hfile hparts
  have hslash : '/' ∉ package.toList := by
    obtain ⟨rest, _, hcut⟩ := Option.bind_eq_some_iff.mp hparts
    exact (Text.splitFirst?_eq_some.mp hcut).2
  exact Path.noSeparator_iff.mpr ⟨fun hmem => hslash (mem_of_mem_kindOf hmem),
    fun hmem => (Path.isFilePath_iff.mp hpackage.1).2 (mem_of_mem_kindOf hmem)⟩

/-- The contents of a module that is moved, if they can be read. -/
def movedBytes? (path : String) (depth : Nat) (bytes : ByteArray) : Option ByteArray :=
  if Text.endsWith ".py" path then
    (Text.decode? bytes).map fun text => Text.encode (anchor depth text)
  else some bytes

/-- What a file of the generator brings into the layout. -/
def moved? (source target file : String) (e : Entry) : Option Put :=
  (parts? source file).bind fun part =>
    if isShared part.2 then some ⟨join target part.2, .file e.contents, false⟩
    else (relocated? part.2 (kindOf part.1)).bind fun path =>
      (normalizeFile (join target path)).toOption.bind fun key =>
        (movedBytes? (join target path) (climb path) e.contents).map fun bytes =>
          ⟨key, .file bytes, true⟩

variable {e : Entry} {p : Put}

/-- A file that is shared is put where none is, and one of a kind is put in any case. -/
theorem moved?_eq_some (h : moved? source target file e = some p) :
    ∃ package module, parts? source file = some (package, module) ∧
      ((isShared module = true ∧ p = ⟨join target module, .file e.contents, false⟩) ∨
        isShared module = false ∧ p.overwrites = true ∧
          ∃ path, relocated? module (kindOf package) = some path ∧
            normalizeFile (join target path) = .ok p.key) := by
  obtain ⟨⟨package, module⟩, hparts, hput⟩ := Option.bind_eq_some_iff.mp h
  refine ⟨package, module, hparts, ?_⟩
  dsimp only at hput
  split at hput
  · next hshared => exact .inl ⟨hshared, (Option.some.inj hput).symm⟩
  · next hshared =>
    obtain ⟨path, hpath, hput⟩ := Option.bind_eq_some_iff.mp hput
    obtain ⟨key, hkey, hput⟩ := Option.bind_eq_some_iff.mp hput
    obtain ⟨bytes, _, rfl⟩ := Option.map_eq_some_iff.mp hput
    exact .inr ⟨Bool.not_eq_true _ ▸ hshared, rfl, path, hpath, Outcome.toOption_eq_some.mp hkey⟩

theorem isBelow_of_moved? (hapart : Apart source target) (hfile : IsFilePath file)
    (h : moved? source target file e = some p) :
    isBelow p.key target = true ∧ IsFilePath p.key ∧
      (p.overwrites = true → fileName p.key ≠ marker) := by
  have hsource := hapart.isFilePath_left.2
  have htarget := hapart.isFilePath_right
  obtain ⟨package, module, hparts, ⟨_, rfl⟩ | ⟨_, _, path, hpath, hkey⟩⟩ := moved?_eq_some h
  · have hmodule := (isFilePath_of_parts? hsource hfile hparts).2
    exact ⟨Path.isBelow_join htarget.2 hmodule.2, Path.isFilePath_join htarget.1 hmodule, nofun⟩
  · obtain ⟨key, hkey', hbelow, hname⟩ := exists_key_of_relocated htarget
      (isFilePath_of_parts? hsource hfile hparts).2 (noSeparator_kindOf hsource hfile hparts) hpath
    cases hkey.symm.trans hkey'
    exact ⟨hbelow, Path.isFilePath_of_normalizeFile hkey, fun _ => hname⟩

end

section

variable {σ : Type} [FileStore σ] {s s' t : σ} {source target file path : String} {e : Entry}

theorem contents_eq (hfile : IsFilePath file) (he : lookup? t file = some e) (depth : Nat) :
    contents t file path (some depth) =
      match movedBytes? path depth e.contents with
      | some bytes => .ok bytes
      | none => .error (.notText file) := by
  have hread : FileStore.read t file = .ok e.contents :=
    (FileStore.read_eq_ok hfile).mpr ⟨e, he, rfl⟩
  simp only [contents, movedBytes?, FileStore.readText, hread]
  split
  · cases hdecode : Text.decode? e.contents <;>
      simp [hdecode, Except.map, bind, Except.bind, pure, Except.pure, throw, throwThe,
        MonadExceptOf.throw]
  · rfl

theorem moveFile_kind {package module key : String} (hfile : IsFilePath file)
    (ht : lookup? t file = some e) (hparts : parts? source file = some (package, module))
    (hshared : isShared module = false) (hpath : relocated? module (kindOf package) = some path)
    (hkey : normalizeFile (join target path) = .ok key) :
    moveFile source target t file =
      match movedBytes? (join target path) (climb path) e.contents with
      | some bytes => .ok (put t key (.file bytes))
      | none => .error (.move file (.notText file)) := by
  rw [parts?] at hparts
  simp only [moveFile, hparts, destination?, hshared, hpath, Bool.false_eq_true, if_false,
    Option.map_some, contents_eq hfile ht]
  cases movedBytes? (join target path) (climb path) e.contents with
  | none => rfl
  | some bytes =>
    simp only [Except.mapError, bind, Except.bind, write_of_normalizeFile hkey]

/-- If a file can be moved, it can be moved into any layout and brings the same there. -/
theorem moveFile_again (hapart : Apart source target) (hfile : IsFilePath file)
    (hs : lookup? s file = some e) (h : moveFile source target s file = .ok s')
    (ht : lookup? t file = some e) : moveFile source target t file =
      .ok ((moved? source target file e).toList.foldl Put.run t) := by
  have hsource := hapart.isFilePath_left.2
  cases hparts : parts? source file with
  | none =>
    rw [moveFile_of_goal?_none (by rw [goal?, hparts]; rfl), moved?, hparts]
    rfl
  | some part =>
    obtain ⟨package, module⟩ := part
    have hmodule := (isFilePath_of_parts? hsource hfile hparts).2
    by_cases hshared : isShared module = true
    · have hplace := Path.isFilePath_join hapart.right hmodule
      rw [moveFile_shared hparts hshared (Path.normalizeFile_of_isFilePath hplace)
        ((FileStore.read_eq_ok hfile).mpr ⟨e, ht, rfl⟩), isFile_of_isFilePath hplace, moved?,
        hparts, Option.bind_some, if_pos hshared]
      simp only [Option.toList_some, List.foldl_cons, List.foldl_nil, Put.run, true_and]
    rw [Bool.not_eq_true] at hshared
    cases hpath : relocated? module (kindOf package) with
    | none =>
      have hgoal : goal? source target file = none := by
        rw [goal?, hparts, Option.bind_some, hshared, hpath]
        rfl
      rw [moveFile_of_goal?_none hgoal, moved?, hparts, Option.bind_some, hshared, hpath]
      rfl
    | some path =>
      obtain ⟨key, hkey, _⟩ := exists_key_of_relocated hapart.isFilePath_right hmodule
        (noSeparator_kindOf hsource hfile hparts) hpath
      rw [moveFile_kind hfile hs hparts hshared hpath hkey] at h
      have hmoved : moved? source target file e =
          (movedBytes? (join target path) (climb path) e.contents).map fun bytes =>
            ⟨key, .file bytes, true⟩ := by
        simp only [moved?, hparts, Option.bind_some, hshared, Bool.false_eq_true, if_false, hpath,
          hkey, Except.toOption]
      rw [moveFile_kind hfile ht hparts hshared hpath hkey, hmoved]
      cases hbytes : movedBytes? (join target path) (climb path) e.contents with
      | none =>
        rw [hbytes] at h
        cases h
      | some bytes => simp [Put.run]

end

end ResourceModels.Python
