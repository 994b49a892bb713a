import ResourceModels.Proofs.Kcl.Arrangement

/-!
# What the layout is made of

The layout differs from what the importer left in the prepared schemas of metadata and in three
kinds of copies: of the module files, of the shared schemas and of the schemas of kinds. It fails
exactly if the schema of metadata is no text or the place of a kind is not one that a file can have.
-/

namespace ResourceModels.Kcl

open FileStore (lookup? put drop paths Lawful PathsNormal)
open ResourceModels.Path (Apart IsFilePath IsNormal fileName isBelow join normalizeFile)

def metaFile (source : String) : String := join (join source sharedFolder) "object_meta.k"

def managedFile (source : String) : String :=
  join (join source sharedFolder) "managed_fields_entry.k"

def moduleFiles : List String := ["kcl.mod", "kcl.mod.lock"]

/-- The schema of metadata with managed fields that may be anything, a file like any other. -/
def loosened? (e : Entry) : Option Entry :=
  (Text.decode? e.contents).map fun text => .file (Text.encode
    (Text.replace "managedFields?: [ManagedFieldsEntry]" "managedFields?: any" text))

/-- What stands at a path when the schemas of metadata are prepared. -/
def prepared (source : String) (view : String → Option Entry) (path : String) : Option Entry :=
  if path = managedFile source then none
  else if path = metaFile source then (view path).bind loosened?
  else view path

/-- The module files that are there, to the same names in the target. -/
def moduleCopies (view : String → Option Entry) (source target : String) (names : List String) :
    List (String × String) :=
  (names.filter fun name => (view (join source name)).isSome).map fun name =>
    (join source name, join target name)

section

variable {source target path name : String}

theorem metaFile_eq (hsource : source ≠ "") : metaFile source =
    source ++ "/" ++ "k8s/apimachinery/pkg/apis/meta/v1/object_meta.k" := by
  have hrest : sharedFolder ++ ("/" ++ "object_meta.k") =
      "k8s/apimachinery/pkg/apis/meta/v1/object_meta.k" := by decide
  rw [metaFile, Path.join_of_ne (Path.join_ne_empty hsource) (by decide),
    Path.join_of_ne hsource (by decide), ← hrest]
  simp only [String.append_assoc]

theorem managedFile_eq (hsource : source ≠ "") : managedFile source =
    source ++ "/" ++ "k8s/apimachinery/pkg/apis/meta/v1/managed_fields_entry.k" := by
  have hrest : sharedFolder ++ ("/" ++ "managed_fields_entry.k") =
      "k8s/apimachinery/pkg/apis/meta/v1/managed_fields_entry.k" := by decide
  rw [managedFile, Path.join_of_ne (Path.join_ne_empty hsource) (by decide),
    Path.join_of_ne hsource (by decide), ← hrest]
  simp only [String.append_assoc]

theorem isFilePath_metaFile (hsource : IsFilePath source) : IsFilePath (metaFile source) := by
  rw [metaFile_eq hsource.2, Path.isFilePath_append_slash]
  exact ⟨hsource, by decide⟩

theorem isFilePath_managedFile (hsource : IsFilePath source) : IsFilePath (managedFile source) := by
  rw [managedFile_eq hsource.2, Path.isFilePath_append_slash]
  exact ⟨hsource, by decide⟩

theorem isBelow_metaFile (hsource : source ≠ "") : isBelow (metaFile source) source = true :=
  (Path.isBelow_iff_exists hsource).mpr ⟨_, metaFile_eq hsource⟩

theorem isBelow_managedFile (hsource : source ≠ "") :
    isBelow (managedFile source) source = true :=
  (Path.isBelow_iff_exists hsource).mpr ⟨_, managedFile_eq hsource⟩

/-- Nothing is prepared outside the shared schemas. -/
theorem prepared_of_ne {view : String → Option Entry} (hmanaged : path ≠ managedFile source)
    (hmeta : path ≠ metaFile source) : prepared source view path = view path := by
  rw [prepared, if_neg hmanaged, if_neg hmeta]

theorem isBelow_folder_managedFile (hsource : source ≠ "") :
    isBelow (managedFile source) (join source "k8s") = true := by
  have hrest : "k8s" ++ ("/" ++ "apimachinery/pkg/apis/meta/v1/managed_fields_entry.k") =
      "k8s/apimachinery/pkg/apis/meta/v1/managed_fields_entry.k" := by decide
  refine (Path.isBelow_iff_exists (Path.join_ne_empty hsource)).mpr
    ⟨"apimachinery/pkg/apis/meta/v1/managed_fields_entry.k", ?_⟩
  rw [managedFile_eq hsource, Path.join_of_ne hsource (by decide), ← hrest]
  simp only [String.append_assoc]

theorem metaFile_ne_managedFile (hsource : source ≠ "") : metaFile source ≠ managedFile source := by
  rw [metaFile_eq hsource, managedFile_eq hsource]
  exact (String.append_right_inj _).not.mpr (by decide)

theorem mark_metaFile (hsource : source ≠ "") : '_' ∈ (fileName (metaFile source)).toList := by
  rw [metaFile, Path.join_of_ne (Path.join_ne_empty hsource) (by decide),
    Path.fileName_append_slash (by decide)]
  decide

theorem mark_managedFile (hsource : source ≠ "") :
    '_' ∈ (fileName (managedFile source)).toList := by
  rw [managedFile, Path.join_of_ne (Path.join_ne_empty hsource) (by decide),
    Path.fileName_append_slash (by decide)]
  decide

theorem module_ne (hsource : source ≠ "") (hname : name ∈ moduleFiles) :
    join source name ≠ managedFile source ∧ join source name ≠ metaFile source := by
  have hne : ∀ name ∈ moduleFiles, name ≠ "" ∧
      name ≠ "k8s/apimachinery/pkg/apis/meta/v1/managed_fields_entry.k" ∧
      name ≠ "k8s/apimachinery/pkg/apis/meta/v1/object_meta.k" := by decide
  obtain ⟨hempty, hmanaged, hmeta⟩ := hne name hname
  rw [Path.join_of_ne hsource hempty, managedFile_eq hsource, metaFile_eq hsource]
  exact ⟨(String.append_right_inj _).not.mpr hmanaged, (String.append_right_inj _).not.mpr hmeta⟩

end

section

variable {view : String → Option Entry} {source target path : String} {names : List String}
  {c : String × String}

theorem mem_moduleCopies : c ∈ moduleCopies view source target names ↔
    ∃ name ∈ names, (view (join source name)).isSome ∧
      c = (join source name, join target name) := by
  simp only [moduleCopies, List.mem_map, List.mem_filter, and_assoc, eq_comm (b := c)]

theorem moduleCopies_congr {view' : String → Option Entry}
    (h : ∀ name ∈ names, view (join source name) = view' (join source name)) :
    moduleCopies view source target names = moduleCopies view' source target names := by
  rw [moduleCopies, moduleCopies]
  congr 1
  exact List.filter_congr fun name hname => by rw [h name hname]

theorem moduleCopies_cons (name : String) (rest : List String) :
    moduleCopies view source target (name :: rest) =
      moduleCopies view source target [name] ++ moduleCopies view source target rest := by
  rw [← List.singleton_append, moduleCopies, List.filter_append, List.map_append, moduleCopies,
    moduleCopies]

/-- No module file is copied to below the source. -/
theorem moduleCopies_ne (hapart : Apart source target) (hnames : ∀ name ∈ names, IsFilePath name)
    (hpath : isBelow path source = true) :
    ∀ c ∈ moduleCopies view source target names, c.2 ≠ path := by
  intro c hc
  obtain ⟨name, hname, _, rfl⟩ := mem_moduleCopies.mp hc
  exact (hapart.ne_of_isBelow hpath (Path.isBelow_join hapart.isFilePath_right.2
    (hnames name hname).2)).symm

theorem isFilePath_moduleFile : ∀ name ∈ moduleFiles, IsFilePath name := by decide

/-- What is prepared is no module file and lies outside the target. -/
theorem prepared_moduleCopies (hapart : Apart source target) :
    prepared source (afterCopies view (moduleCopies view source target moduleFiles)) =
      afterCopies (prepared source view) (moduleCopies view source target moduleFiles) := by
  have hsource := hapart.isFilePath_left.2
  funext path
  by_cases hmanaged : path = managedFile source
  · subst hmanaged
    have hkept : ∀ c ∈ moduleCopies view source target moduleFiles, c.2 ≠ managedFile source :=
      moduleCopies_ne hapart isFilePath_moduleFile (isBelow_managedFile hsource)
    rw [afterCopies_of_forall_ne hkept, prepared, prepared, if_pos rfl, if_pos rfl]
  by_cases hmeta : path = metaFile source
  · subst hmeta
    have hkept : ∀ c ∈ moduleCopies view source target moduleFiles, c.2 ≠ metaFile source :=
      moduleCopies_ne hapart isFilePath_moduleFile (isBelow_metaFile hsource)
    rw [afterCopies_of_forall_ne hkept, prepared, prepared, afterCopies_of_forall_ne hkept]
  rw [prepared_of_ne hmanaged hmeta, afterCopies, afterCopies, prepared_of_ne hmanaged hmeta]
  cases hfind : (moduleCopies view source target moduleFiles).reverse.find? (·.2 = path) with
  | none => rfl
  | some c =>
    have hc := List.mem_reverse.mp (List.mem_of_find?_eq_some hfind)
    obtain ⟨name, hname, _, rfl⟩ := mem_moduleCopies.mp hc
    obtain ⟨hown, hother⟩ := module_ne hsource hname
    exact (prepared_of_ne hown hother).symm

end

section

variable {σ : Type} [FileStore σ] {files files' : σ} {source target path : String}

/-- The schema of metadata is rewritten if it is a text. -/
theorem loosen_of_some {file : String} (hfile : IsFilePath file) {e : Entry}
    (he : lookup? files file = some e) : loosen files file =
      match loosened? e with
      | some e' => .ok (put files file e')
      | none => .error (.move file (.notText file)) := by
  have hkey : normalizeFile file = .ok file := Path.normalizeFile_of_isFilePath hfile
  have hfound : FileStore.isFile files file = true := by
    simp only [FileStore.isFile, hkey, he, Option.isSome_some]
  have hread : FileStore.read files file = .ok e.contents :=
    (FileStore.read_eq_ok hfile).mpr ⟨e, he, rfl⟩
  rw [loosen, if_pos hfound, FileStore.readText, hread, loosened?]
  simp only [FileStore.writeText, FileStore.write, FileStore.writeEntry, hkey]
  cases hdecode : Text.decode? e.contents <;>
    simp [hdecode, Except.mapError, bind, Except.bind, pure, Except.pure, throw, throwThe,
      MonadExceptOf.throw]

theorem removeFile_eq {file : String} (hfile : IsFilePath file) :
    removeFile files file = .ok (drop files file) := by
  have hkey : normalizeFile file = .ok file := Path.normalizeFile_of_isFilePath hfile
  simp only [removeFile, FileStore.remove, hkey, bind, Except.bind, pure, Except.pure]

/-- The schemas of metadata, prepared in two steps. -/
def prepare (files : σ) (source : String) : Except LayoutError σ := do
  removeFile (← loosen files (metaFile source)) (managedFile source)

theorem prepare_of_unreadable (hsource : IsFilePath source) {e : Entry}
    (he : lookup? files (metaFile source) = some e) (hnone : loosened? e = none) :
    ∃ cause, prepare files source = .error cause := by
  rw [prepare, loosen_of_some (isFilePath_metaFile hsource) he, hnone]
  exact ⟨_, rfl⟩

/-- The files below a directory of the source that are left to be copied, in the order of their
paths. -/
def left (files : σ) (source dir : String) : List String :=
  (paths files).filter fun path => isBelow path dir && path ≠ managedFile source

/-- The shared schemas, each to the same place in the target. -/
def sharedCopies (files : σ) (source target : String) : List (String × String) :=
  (left files source (join source "k8s")).filterMap
    (copy? (sharedPlace? (join source "k8s") (join target "k8s")))

/-- The other schemas that have a place, each to its place in the target. -/
def kindCopies (files : σ) (source target : String) : List (String × String) :=
  (left files source source).filterMap (copy? (kindPlace? (join source "k8s") target))

theorem mem_left {dir : String} : path ∈ left files source dir ↔
    path ∈ paths files ∧ isBelow path dir = true ∧ path ≠ managedFile source := by
  rw [left, List.mem_filter, Bool.and_eq_true, decide_eq_true_eq]

variable [Lawful σ]

theorem exists_copyModule (files : σ) (hapart : Apart source target) {name : String}
    (hname : IsFilePath name) :
    ∃ files', copyEntry files (join source name) (join target name) = .ok files' ∧
      ∀ path, lookup? files' path =
        afterCopies (lookup? files) (moduleCopies (lookup? files) source target [name]) path := by
  cases he : lookup? files (join source name) with
  | none =>
    have hnone : moduleCopies (lookup? files) source target [name] = [] := by
      simp [moduleCopies, he]
    exact ⟨files, copyEntry_of_none he _, fun path => by rw [hnone]; rfl⟩
  | some e =>
    have hone : moduleCopies (lookup? files) source target [name] =
        [(join source name, join target name)] := by
      simp [moduleCopies, he]
    have hkey : normalizeFile (join target name) = .ok (join target name) :=
      Path.normalizeFile_of_isFilePath (Path.isFilePath_join hapart.right hname)
    exact ⟨put files (join target name) e, (copyEntry_eq_ok he).mpr ⟨_, hkey, rfl⟩,
      fun path => by rw [hone, lookup?_put_copied he]⟩

/-- Module files are copied if they are there. -/
theorem exists_copyModules (files : σ) (hapart : Apart source target) {names : List String}
    (hnames : ∀ name ∈ names, IsFilePath name) :
    ∃ files', names.foldlM (fun files name =>
        copyEntry files (join source name) (join target name)) files = .ok files' ∧
      ∀ path, lookup? files' path =
        afterCopies (lookup? files) (moduleCopies (lookup? files) source target names) path := by
  induction names generalizing files with
  | nil => exact ⟨files, rfl, fun _ => rfl⟩
  | cons name rest ih =>
    obtain ⟨hname, hrest⟩ := List.forall_mem_cons.mp hnames
    obtain ⟨first, hfirst, hview⟩ := exists_copyModule files hapart hname
    obtain ⟨files', hfiles', hfinal⟩ := ih first hrest
    -- the later module files are not where the first one is copied to
    have hne : ∀ other ∈ rest, ∀ c ∈ moduleCopies (lookup? files) source target [name],
        c.2 ≠ join source other := fun other hother =>
      moduleCopies_ne hapart (List.forall_mem_singleton.mpr hname)
        (Path.isBelow_join hapart.isFilePath_left.2 (hrest other hother).2)
    have hsame : moduleCopies (lookup? first) source target rest =
        moduleCopies (lookup? files) source target rest := moduleCopies_congr fun other hother => by
      rw [hview, afterCopies_of_forall_ne (hne other hother)]
    refine ⟨files', ?_, fun path => ?_⟩
    · rw [List.foldlM_cons, hfirst]
      exact hfiles'
    · rw [hfinal, hsame, funext hview, moduleCopies_cons name rest, afterCopies_append]
      intro c hc d hd
      obtain ⟨other, hother, _, rfl⟩ := mem_moduleCopies.mp hd
      exact hne other hother c hc

theorem exists_prepare (files : σ) (hsource : IsFilePath source)
    (hmeta : ∀ e, lookup? files (metaFile source) = some e → ∃ e', loosened? e = some e') :
    ∃ files', prepare files source = .ok files' ∧
      ∀ path, lookup? files' path = prepared source (lookup? files) path := by
  have hfile := isFilePath_metaFile hsource
  have hremove : ∀ files : σ, removeFile files (managedFile source) = .ok _ := fun files =>
    removeFile_eq (isFilePath_managedFile hsource)
  cases he : lookup? files (metaFile source) with
  | none =>
    refine ⟨drop files (managedFile source), ?_, fun path => ?_⟩
    · rw [prepare, loosen_of_none hfile he]
      exact hremove files
    · rw [Lawful.lookup?_drop, prepared]
      by_cases hmanaged : managedFile source = path
      · rw [if_pos hmanaged, if_pos hmanaged.symm]
      rw [if_neg hmanaged, if_neg (Ne.symm hmanaged)]
      split
      · next hpath => rw [hpath, he, Option.bind_none]
      · rfl
  | some e =>
    obtain ⟨e', he'⟩ := hmeta e he
    refine ⟨drop (put files (metaFile source) e') (managedFile source), ?_, fun path => ?_⟩
    · rw [prepare, loosen_of_some hfile he, he']
      exact hremove _
    · rw [Lawful.lookup?_drop, Lawful.lookup?_put, prepared]
      by_cases hmanaged : managedFile source = path
      · rw [if_pos hmanaged, if_pos hmanaged.symm]
      rw [if_neg hmanaged, if_neg (Ne.symm hmanaged)]
      by_cases hpath : metaFile source = path
      · rw [if_pos hpath, if_pos hpath.symm, ← hpath, he, Option.bind_some, he']
      · rw [if_neg hpath, if_neg (Ne.symm hpath)]

theorem filter_paths_eq_left {dir : String}
    (h : ∀ path, isBelow path dir = true →
      (path ∈ paths files' ↔ path ∈ paths files ∧ path ≠ managedFile source)) :
    (paths files').filter (isBelow · dir) = left files source dir := by
  refine Dict.keys_eq_of_mem ((Lawful.paths_pairwise files').filter _)
    ((Lawful.paths_pairwise files).filter _) fun path => ?_
  rw [List.mem_filter, mem_left]
  constructor
  · rintro ⟨hpath, hbelow⟩
    obtain ⟨hmem, hne⟩ := (h path hbelow).mp hpath
    exact ⟨hmem, hbelow, hne⟩
  · rintro ⟨hmem, hbelow, hne⟩
    exact ⟨(h path hbelow).mpr ⟨hmem, hne⟩, hbelow⟩

end

/-- What a place is made of are pieces of the name. -/
theorem relocated?_eq_some {name place : String} (h : relocated? name = some place) :
    ∃ labels version words, labels ≠ [] ∧
      Text.split (· = '_') name = labels ++ version :: words ∧
      place = Text.join "/" (labels.reverse ++ [version]) ++ "/" ++
        Text.replace "swagger" "" (String.join words) := by
  unfold relocated? at h
  split at h
  · next label labels version words hspan =>
    rw [List.span_eq_takeWhile_dropWhile, Prod.mk.injEq] at hspan
    have hwhole := List.takeWhile_append_dropWhile (l := Text.split (· = '_') name)
      (p := fun part => !ApiVersion.isKnown part)
    rw [hspan.1, hspan.2] at hwhole
    dsimp only at h
    split at h
    · cases h
    · exact ⟨label :: labels, version, words, List.cons_ne_nil _ _, hwhole.symm,
        (Option.some.inj h).symm⟩
  · cases h

/-- A file has a place only if its name holds a mark, and the place holds none. -/
theorem mark_of_relocated? {name place : String} (h : relocated? name = some place) :
    '_' ∈ name.toList ∧ '_' ∉ place.toList := by
  obtain ⟨labels, version, words, hlabels, hsplit, rfl⟩ := relocated?_eq_some h
  have hpieces : ∀ piece ∈ labels ++ version :: words, '_' ∉ piece.toList :=
    fun piece hpiece hmem =>
      absurd (Text.noMark_of_mem_split (hsplit ▸ hpiece) '_' hmem) (by decide)
  rw [List.forall_mem_append, List.forall_mem_cons] at hpieces
  obtain ⟨hclean, hversion, hwords⟩ := hpieces
  constructor
  · by_contra hnone
    have hone : Text.split (· = '_') name = [name] := Text.split_of_noMark fun c hc =>
      decide_eq_false fun heq => hnone (heq ▸ hc)
    have hlength := congrArg List.length (hsplit.symm.trans hone)
    rw [List.length_append, List.length_cons, List.length_singleton] at hlength
    exact hlabels (List.eq_nil_of_length_eq_zero (by omega))
  · intro hmem
    simp only [String.toList_append, List.mem_append] at hmem
    rcases hmem with (hmem | hmem) | hmem
    · rcases Text.mem_of_mem_join hmem with hslash | ⟨piece, hpiece, hmark⟩
      · exact absurd hslash (by decide)
      rcases List.mem_append.mp hpiece with hpiece | hpiece
      · exact hclean piece (List.mem_reverse.mp hpiece) hmark
      · exact hversion (List.mem_singleton.mp hpiece ▸ hmark)
    · exact absurd hmem (by decide)
    · rcases Text.mem_of_mem_replace hmem with hmem | hmem
      · exact absurd hmem (by decide)
      · rw [String.toList_join, List.mem_flatMap] at hmem
        obtain ⟨word, hword, hmem⟩ := hmem
        exact hwords word hword hmem

section

variable {σ : Type} [FileStore σ] {files files' front : σ} {source target path : String}
  {c d : String × String}

theorem isBelow_of_isBelow_folder (hsource : source ≠ "")
    (h : isBelow path (join source "k8s") = true) : isBelow path source = true := by
  have hfolder : isBelow (join source "k8s") source = true :=
    Path.isBelow_join hsource (by decide)
  exact Path.isBelow_trans (Path.join_ne_empty hsource) hsource h hfolder

theorem mem_sharedCopies (hfiles : PathsNormal files) (hapart : Apart source target) :
    c ∈ sharedCopies files source target ↔ ∃ rest, c.1 ∈ left files source (join source "k8s") ∧
      Path.below? c.1 (join source "k8s") = some rest ∧ c.2 = join (join target "k8s") rest := by
  have htarget : IsNormal (join target "k8s") :=
    (Path.isFilePath_join hapart.right (by decide)).1
  rw [sharedCopies, List.mem_filterMap]
  constructor
  · rintro ⟨file, hfile, hcopy⟩
    obtain ⟨rfl, place, hplace, hkey⟩ := copy?_eq_some.mp hcopy
    obtain ⟨rest, hrest, rfl⟩ := Option.map_eq_some_iff.mp hplace
    have hnormal := Path.isFilePath_below? (hfiles _ (mem_left.mp hfile).1) hrest
    rw [Path.normalizeFile_of_isFilePath (Path.isFilePath_join htarget hnormal)] at hkey
    exact ⟨rest, hfile, hrest, (Except.ok.inj hkey).symm⟩
  · rintro ⟨rest, hfile, hrest, hplace⟩
    have hnormal := Path.isFilePath_below? (hfiles _ (mem_left.mp hfile).1) hrest
    have hshared : sharedPlace? (join source "k8s") (join target "k8s") c.1 =
        some (join (join target "k8s") rest) := Option.map_eq_some_iff.mpr ⟨rest, hrest, rfl⟩
    refine ⟨c.1, hfile, copy?_eq_some.mpr ⟨rfl, _, hshared, ?_⟩⟩
    rw [hplace]
    exact Path.normalizeFile_of_isFilePath (Path.isFilePath_join htarget hnormal)

theorem isBelow_of_mem_sharedCopies (hfiles : PathsNormal files) (hapart : Apart source target)
    (hc : c ∈ sharedCopies files source target) :
    isBelow c.1 source = true ∧ isBelow c.2 target = true := by
  obtain ⟨rest, hfile, hrest, hplace⟩ := (mem_sharedCopies hfiles hapart).mp hc
  obtain ⟨hmem, hbelow, _⟩ := mem_left.mp hfile
  refine ⟨isBelow_of_isBelow_folder hapart.isFilePath_left.2 hbelow, ?_⟩
  have hne := (Path.isFilePath_below? (hfiles _ hmem) hrest).2
  have hfolder : join target "k8s" ≠ "" :=
    (Path.isFilePath_join hapart.right (by decide)).2
  refine isBelow_of_isBelow_folder hapart.isFilePath_right.2 ?_
  rw [hplace]
  exact Path.isBelow_join hfolder hne

theorem mem_kindCopies : c ∈ kindCopies files source target ↔
    c.1 ∈ left files source source ∧ isBelow c.1 (join source "k8s") = false ∧
      ∃ place, relocated? (fileName c.1) = some place ∧
        normalizeFile (join target place) = .ok c.2 := by
  rw [kindCopies, List.mem_filterMap]
  constructor
  · rintro ⟨file, hfile, hcopy⟩
    obtain ⟨rfl, place, hplace, hkey⟩ := copy?_eq_some.mp hcopy
    rw [kindPlace?] at hplace
    split at hplace
    · cases hplace
    next hshared =>
    obtain ⟨r, hr, rfl⟩ := Option.map_eq_some_iff.mp hplace
    exact ⟨hfile, Bool.not_eq_true _ ▸ hshared, r, hr, hkey⟩
  · rintro ⟨hfile, hshared, r, hr, hkey⟩
    refine ⟨c.1, hfile, copy?_eq_some.mpr ⟨rfl, join target r, ?_, hkey⟩⟩
    rw [kindPlace?, hshared, hr]
    rfl

/-- No schema of a kind goes to a path of the source whose last segment holds a mark. The place is
made of segments without marks, so it would have to be the target or a directory that holds it. -/
theorem ne_of_mem_kindCopies (hapart : Apart source target)
    (hc : c ∈ kindCopies files source target) (hpath : isBelow path source = true)
    (hmark : '_' ∈ (fileName path).toList) : c.2 ≠ path := by
  obtain ⟨_, _, place, hplace, hkey⟩ := mem_kindCopies.mp hc
  rintro rfl
  obtain ⟨hsource, htarget⟩ := And.intro hapart.isFilePath_left.2 hapart.isFilePath_right.2
  rcases Path.eq_or_isBelow_of_mem_fileName hapart.isFilePath_right hkey
    (mark_of_relocated? hplace).2 hmark with heq | habove
  · rw [heq, hapart.right_notBelow] at hpath
    cases hpath
  · have hkey_ne := (Path.isFilePath_of_normalizeFile hkey).2
    have hbelow := Path.isBelow_trans hkey_ne hsource habove hpath
    rw [hapart.right_notBelow] at hbelow
    cases hbelow

theorem kindCopies_ne (hapart : Apart source target) (hc : c ∈ kindCopies files source target)
    (hd : d ∈ kindCopies files source target) : c.2 ≠ d.1 := by
  obtain ⟨hfile, _, place, hplace, _⟩ := mem_kindCopies.mp hd
  exact ne_of_mem_kindCopies hapart hc (mem_left.mp hfile).2.1 (mark_of_relocated? hplace).1

/-- Copies the shared schemas, then those of kinds. -/
def spread (front : σ) (source target : String) : Except LayoutError σ := do
  let files ← ((paths front).filter (isBelow · (join source "k8s"))).foldlM
    (copyTo (sharedPlace? (join source "k8s") (join target "k8s"))) front
  ((paths files).filter (isBelow · source)).foldlM
    (copyTo (kindPlace? (join source "k8s") target)) files

theorem placeable_shared (hfiles : PathsNormal files) (hapart : Apart source target)
    (dir : String) :
    Placeable (sharedPlace? dir (join target "k8s")) (left files source dir) := by
  intro file hfile place hplace
  obtain ⟨rest, hrest, rfl⟩ := Option.map_eq_some_iff.mp hplace
  have htarget : IsNormal (join target "k8s") :=
    (Path.isFilePath_join hapart.right (by decide)).1
  have hnormal := Path.isFilePath_below? (hfiles _ (mem_left.mp hfile).1) hrest
  exact ⟨_, Path.normalizeFile_of_isFilePath (Path.isFilePath_join htarget hnormal)⟩

variable [Lawful σ]

/-- Where a store has the files of another one below the source, but for the schema of managed
fields, its files are copied to where those of the other one go. -/
theorem spread_spec (hfiles : PathsNormal files) (hapart : Apart source target)
    (hfront : ∀ path, isBelow path source = true →
      (path ∈ paths front ↔ path ∈ paths files ∧ path ≠ managedFile source)) :
    ((∃ files', spread front source target = .ok files') ↔
      Placeable (kindPlace? (join source "k8s") target) (left files source source)) ∧
    ∀ files', spread front source target = .ok files' → ∀ path, lookup? files' path =
      afterCopies (lookup? front)
        (sharedCopies files source target ++ kindCopies files source target) path := by
  have hsource := hapart.isFilePath_left.2
  have hshared : (paths front).filter (isBelow · (join source "k8s")) =
      left files source (join source "k8s") := filter_paths_eq_left fun path hpath =>
    hfront path (isBelow_of_isBelow_folder hsource hpath)
  have hmem : ∀ file ∈ left files source (join source "k8s"), file ∈ paths front :=
    fun file hfile => (List.mem_filter.mp (hshared ▸ hfile)).1
  obtain ⟨next, hnext⟩ := (exists_copyAll_iff hmem).mpr
    (placeable_shared hfiles hapart (join source "k8s"))
  have hview : ∀ path, lookup? next path =
      afterCopies (lookup? front) (sharedCopies files source target) path :=
    lookup?_copyAll hmem (fun c hc d hd => (hapart.ne_of_isBelow
      (isBelow_of_mem_sharedCopies hfiles hapart hd).1
      (isBelow_of_mem_sharedCopies hfiles hapart hc).2).symm) hnext
  have hkept : ∀ path, isBelow path source = true → lookup? next path = lookup? front path :=
    fun path hpath => by
      rw [hview]
      exact afterCopies_of_forall_ne fun c hc => (hapart.ne_of_isBelow hpath
        (isBelow_of_mem_sharedCopies hfiles hapart hc).2).symm
  have hkinds : (paths next).filter (isBelow · source) = left files source source :=
    filter_paths_eq_left fun path hpath => by
      rw [Lawful.mem_paths, hkept path hpath, ← Lawful.mem_paths, hfront path hpath]
  have hkind_mem : ∀ file ∈ left files source source, file ∈ paths next := fun file hfile =>
    (List.mem_filter.mp (hkinds ▸ hfile)).1
  have hspread : spread front source target = (left files source source).foldlM
      (copyTo (kindPlace? (join source "k8s") target)) next := by
    rw [spread, hshared, hnext, ← hkinds]
    rfl
  rw [hspread]
  refine ⟨exists_copyAll_iff hkind_mem, fun files' hfiles' path => ?_⟩
  rw [lookup?_copyAll hkind_mem (fun c hc d hd => kindCopies_ne hapart hc hd) hfiles',
    funext hview]
  refine (afterCopies_append fun c hc d hd => ?_).symm
  exact (hapart.ne_of_isBelow (mem_left.mp (mem_kindCopies.mp hd).1).2.1
    (isBelow_of_mem_sharedCopies hfiles hapart hc).2).symm

/-- All copies, in the order they are made in. -/
def copies (files : σ) (source target : String) : List (String × String) :=
  moduleCopies (lookup? files) source target moduleFiles ++
    (sharedCopies files source target ++ kindCopies files source target)

omit [Lawful σ] in
theorem arrange_eq (hapart : Apart source target) (files : σ) :
    arrange files source target =
      (moduleFiles.foldlM (fun files name =>
          copyEntry files (join source name) (join target name)) files >>= fun files =>
        prepare files source >>= fun files => spread files source target) := by
  have hshared : ∀ files : σ, under files (join source "k8s") = .ok _ := fun files =>
    under_eq (Path.isFilePath_join hapart.left (by decide)).1 files
  have hsource : ∀ files : σ, under files source = .ok _ := fun files => under_eq hapart.left files
  simp only [arrange, hshared, hsource, moveShared_eq, moveKind_eq, spread, prepare, bind_assoc]
  rfl

/-- Unless the schema of metadata cannot be read, what is laid out are the prepared files and the
copied module files. -/
theorem arrange_eq_spread (hapart : Apart source target)
    (hmeta : ∀ e, lookup? files (metaFile source) = some e → ∃ e', loosened? e = some e') :
    ∃ front, arrange files source target = spread front source target ∧ ∀ path,
      lookup? front path = afterCopies (prepared source (lookup? files))
        (moduleCopies (lookup? files) source target moduleFiles) path := by
  obtain ⟨first, hfirst, hview⟩ := exists_copyModules files hapart isFilePath_moduleFile
  have hkept : lookup? first (metaFile source) = lookup? files (metaFile source) := by
    rw [hview]
    exact afterCopies_of_forall_ne
      (moduleCopies_ne hapart isFilePath_moduleFile (isBelow_metaFile hapart.isFilePath_left.2))
  obtain ⟨front, hfront, hprepared⟩ := exists_prepare first hapart.isFilePath_left
    (by rwa [hkept])
  refine ⟨front, ?_, fun path => ?_⟩
  · rw [arrange_eq hapart, hfirst]
    exact congrArg (· >>= fun files => spread files source target) hfront
  · rw [hprepared, funext hview, prepared_moduleCopies hapart]

theorem arrange_of_unreadable (hapart : Apart source target) {e : Entry}
    (he : lookup? files (metaFile source) = some e) (hnone : loosened? e = none) :
    ∃ cause, arrange files source target = .error cause := by
  obtain ⟨first, hfirst, hview⟩ := exists_copyModules files hapart isFilePath_moduleFile
  have hkept : lookup? first (metaFile source) = some e := by
    rw [hview, ← he]
    exact afterCopies_of_forall_ne
      (moduleCopies_ne hapart isFilePath_moduleFile (isBelow_metaFile hapart.isFilePath_left.2))
  obtain ⟨cause, hcause⟩ := prepare_of_unreadable hapart.isFilePath_left hkept hnone
  refine ⟨cause, ?_⟩
  rw [arrange_eq hapart, hfirst]
  exact congrArg (· >>= fun files => spread files source target) hcause

omit [Lawful σ] in
/-- No copy is made to where the importer leaves the schemas of metadata. -/
theorem copies_ne_of_mark (hfiles : PathsNormal files) (hapart : Apart source target)
    (hpath : isBelow path source = true) (hmark : '_' ∈ (fileName path).toList) :
    ∀ c ∈ copies files source target, c.2 ≠ path := by
  intro c hc
  rcases List.mem_append.mp hc with hc | hc
  · exact moduleCopies_ne hapart isFilePath_moduleFile hpath c hc
  rcases List.mem_append.mp hc with hc | hc
  · exact (hapart.ne_of_isBelow hpath (isBelow_of_mem_sharedCopies hfiles hapart hc).2).symm
  · exact ne_of_mem_kindCopies hapart hc hpath hmark

omit [FileStore σ] [Lawful σ] in
theorem exists_normalizeFile_iff : (∃ key, normalizeFile path = .ok key) ↔
    ¬(Path.normalize? path = none ∨ Path.normalize? path = some "") := by
  simp only [Path.normalizeFile_eq_ok]
  cases Path.normalize? path <;> simp

omit [Lawful σ] in
theorem placeable_kinds_iff (hsource : source ≠ "") :
    Placeable (kindPlace? (join source "k8s") target) (left files source source) ↔
      ¬∃ file ∈ paths files, isBelow file source = true ∧
        isBelow file (join source "k8s") = false ∧ ∃ r, relocated? (fileName file) = some r ∧
          (Path.normalize? (join target r) = none ∨ Path.normalize? (join target r) = some "") := by
  constructor
  · rintro hplaceable ⟨file, hfile, hbelow, hshared, r, hr, hfault⟩
    have hne : file ≠ managedFile source := by
      rintro rfl
      rw [isBelow_folder_managedFile hsource] at hshared
      cases hshared
    have hplace : kindPlace? (join source "k8s") target file = some (join target r) := by
      rw [kindPlace?, hshared, hr]
      rfl
    exact exists_normalizeFile_iff.mp
      (hplaceable file (mem_left.mpr ⟨hfile, hbelow, hne⟩) _ hplace) hfault
  · intro hnone file hfile place hplace
    obtain ⟨hmem, hbelow, _⟩ := mem_left.mp hfile
    rw [kindPlace?] at hplace
    split at hplace
    · cases hplace
    next hshared =>
    obtain ⟨r, hr, rfl⟩ := Option.map_eq_some_iff.mp hplace
    exact exists_normalizeFile_iff.mpr fun hfault =>
      hnone ⟨file, hmem, hbelow, Bool.not_eq_true _ ▸ hshared, r, hr, hfault⟩

omit [FileStore σ] [Lawful σ] in
theorem isSome_prepared {view : String → Option Entry}
    (hmeta : ∀ e, view (metaFile source) = some e → ∃ e', loosened? e = some e') :
    (prepared source view path).isSome ↔ (view path).isSome ∧ path ≠ managedFile source := by
  unfold prepared
  split
  · next hmanaged => simp [hmanaged]
  next hmanaged =>
  rw [and_iff_left hmanaged]
  split
  · next hpath =>
    cases he : view path with
    | none => rfl
    | some e =>
      obtain ⟨e', he'⟩ := hmeta e (hpath ▸ he)
      rw [Option.bind_some, he']
      exact iff_of_true rfl rfl
  · rfl

/-- Below the source, nothing but the schema of managed fields is gone by then. -/
theorem mem_paths_prepared (hapart : Apart source target)
    (hmeta : ∀ e, lookup? files (metaFile source) = some e → ∃ e', loosened? e = some e')
    (hview : ∀ path, lookup? front path = afterCopies (prepared source (lookup? files))
      (moduleCopies (lookup? files) source target moduleFiles) path)
    (hpath : isBelow path source = true) :
    path ∈ paths front ↔ path ∈ paths files ∧ path ≠ managedFile source := by
  rw [Lawful.mem_paths, hview,
    afterCopies_of_forall_ne (moduleCopies_ne hapart isFilePath_moduleFile hpath),
    Lawful.mem_paths, isSome_prepared hmeta]

theorem loosened?_eq_none_iff {e : Entry} : loosened? e = none ↔ Text.decode? e.contents = none :=
  Option.map_eq_none_iff

/-- Laying out fails exactly if the schema of metadata is no text, or if the place of a kind is the
root or above it. Otherwise it prepares the schemas of metadata and makes the copies, a later one
over an earlier one, and nothing else is changed. -/
theorem arrange_spec (hfiles : PathsNormal files) (hapart : Apart source target) :
    ((∃ cause, arrange files source target = .error cause) ↔
      (∃ e, lookup? files (metaFile source) = some e ∧ Text.decode? e.contents = none) ∨
        ∃ file ∈ paths files, isBelow file source = true ∧
          isBelow file (join source "k8s") = false ∧ ∃ r, relocated? (fileName file) = some r ∧
            (Path.normalize? (join target r) = none ∨
              Path.normalize? (join target r) = some "")) ∧
    ∀ files', arrange files source target = .ok files' →
      lookup? files' (managedFile source) = none ∧
      lookup? files' (metaFile source) = (lookup? files (metaFile source)).bind loosened? ∧
      ∀ path, lookup? files' path =
        afterCopies (prepared source (lookup? files)) (copies files source target) path := by
  have hsource := hapart.isFilePath_left.2
  by_cases hunreadable :
      ∃ e, lookup? files (metaFile source) = some e ∧ Text.decode? e.contents = none
  · obtain ⟨e, he, hnone⟩ := hunreadable
    obtain ⟨cause, hcause⟩ := arrange_of_unreadable hapart he (loosened?_eq_none_iff.mpr hnone)
    refine ⟨iff_of_true ⟨cause, hcause⟩ (.inl ⟨e, he, hnone⟩), fun files' hfiles' => ?_⟩
    cases hcause.symm.trans hfiles'
  have hmeta : ∀ e, lookup? files (metaFile source) = some e → ∃ e', loosened? e = some e' :=
    fun e he => Option.ne_none_iff_exists'.mp fun hnone =>
      hunreadable ⟨e, he, loosened?_eq_none_iff.mp hnone⟩
  obtain ⟨front, harrange, hview⟩ := arrange_eq_spread hapart hmeta
  obtain ⟨hok, hcopied⟩ := spread_spec hfiles hapart fun path =>
    mem_paths_prepared hapart hmeta hview
  rw [harrange, or_iff_right hunreadable]
  constructor
  · rw [Outcome.exists_error_iff, hok, placeable_kinds_iff hsource, not_not]
  intro files' hfiles'
  have hwhole : ∀ path, lookup? files' path =
      afterCopies (prepared source (lookup? files)) (copies files source target) path := by
    intro path
    rw [hcopied files' hfiles', funext hview]
    refine (afterCopies_append fun c hc d hd => ?_).symm
    have hd_below : isBelow d.1 source = true := (List.mem_append.mp hd).elim
      (fun hd => (isBelow_of_mem_sharedCopies hfiles hapart hd).1)
      (fun hd => (mem_left.mp (mem_kindCopies.mp hd).1).2.1)
    exact moduleCopies_ne hapart isFilePath_moduleFile hd_below c hc
  refine ⟨?_, ?_, hwhole⟩
  · rw [hwhole, afterCopies_of_forall_ne (copies_ne_of_mark hfiles hapart
      (isBelow_managedFile hsource) (mark_managedFile hsource)), prepared, if_pos rfl]
  · rw [hwhole, afterCopies_of_forall_ne (copies_ne_of_mark hfiles hapart
      (isBelow_metaFile hsource) (mark_metaFile hsource)), prepared,
      if_neg (metaFile_ne_managedFile hsource), if_pos rfl]

end

/-- What the importer may leave. One file is named for a group whose label leads up. -/
def importerTree : FileTree :=
  .ofEntries
    [("models/kcl.mod", .file (Text.encode "[package]\n")),
      ("models/k8s/apimachinery/pkg/apis/meta/v1/object_meta.k",
        .file (Text.encode "schema ObjectMeta:\n    managedFields?: [ManagedFieldsEntry]\n")),
      ("models/k8s/apimachinery/pkg/apis/meta/v1/managed_fields_entry.k",
        .file (Text.encode "schema M:\n")),
      ("models/v1alpha1/platform_acme_co_v1alpha1_x_bucket.k",
        .file (Text.encode "schema XBucket:\n")),
      ("models/.._v1_thing.k", .file (Text.encode "schema Thing:\n"))]

theorem arrange_importerTree :
    PathsNormal importerTree ∧ Apart "models" "sorted" ∧
      ∃ t, arrange importerTree "models" "sorted" = .ok t ∧
        lookup? t "models/k8s/apimachinery/pkg/apis/meta/v1/managed_fields_entry.k" = none ∧
        lookup? t "sorted/k8s/apimachinery/pkg/apis/meta/v1/object_meta.k" =
          some (.file (Text.encode "schema ObjectMeta:\n    managedFields?: any\n")) ∧
        lookup? t "sorted/co/acme/platform/v1alpha1/xbucket.k" =
          some (.file (Text.encode "schema XBucket:\n")) ∧
        lookup? t "v1/thing.k" = some (.file (Text.encode "schema Thing:\n")) := by
  have hnormal : PathsNormal importerTree := by
    rw [PathsNormal]
    decide +kernel
  have hapart : Apart "models" "sorted" := by decide
  have hok : (arrange importerTree "models" "sorted").isOk = true := by decide +kernel
  obtain ⟨t, ht⟩ := Outcome.isOk_iff.mp hok
  obtain ⟨hmanaged, -, hcopied⟩ := (arrange_spec hnormal hapart).2 t ht
  refine ⟨hnormal, hapart, t, ht, hmanaged, ?_⟩
  rw [hcopied, hcopied, hcopied]
  decide +kernel

end ResourceModels.Kcl
