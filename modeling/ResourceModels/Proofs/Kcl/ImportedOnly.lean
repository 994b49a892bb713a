import ResourceModels.Proofs.Kcl.Arrangement
import ResourceModels.Proofs.Kcl.Staging
import ResourceModels.Proofs.Models.Generators

/-!
# Models of the importer only

The importer leaves its schemas in the work tree that it is given, beside the definitions, and what
is taken from there is found by path. If it leaves nothing, there are no models exactly if every
definition is staged at a path that is passed over; one that lies where schemas are looked for is
handed on as a model.
-/

namespace ResourceModels.Kcl

open FileStore (lookup? paths PathsNormal)
open ResourceModels.Path (IsFilePath IsNormal)
open Sandbox (Request Runner)

/-- A file of the work tree that gives no model. It does not lie where models are collected. Where
schemas are looked for, it is not among the shared ones, and if its name has a place in the layout,
that place can be written to and is not where models are collected. -/
structure IsPassedOver (path : String) : Prop where
  not_collected : ¬Path.isBelow path "sorted" = true
  not_shared : ¬Path.isBelow path "models/k8s" = true
  not_placed : Path.isBelow path "models" = true →
    ∀ place, relocated? (Path.fileName path) = some place →
      ∃ key, Path.normalizeFile (Path.join "sorted" place) = .ok key ∧
        ¬Path.isBelow key "sorted" = true

section

variable {t t' models : FileTree} {path : String}

/-- Nothing but a path lies between what is laid out and the models. -/
theorem exists_collected (t : FileTree) : ∃ models n,
    FileStore.copyDir t "sorted" (∅ : FileTree) "models" = .ok (models, n) ∧
      ∀ path, path ∈ paths models ↔ path ∈ paths (∅ : FileTree) ∨
        ∃ file ∈ paths t, ∃ rest,
          Path.below? file "sorted" = some rest ∧ path = Path.join "models" rest :=
  FileStore.exists_copyDir t ∅ (show IsNormal "sorted" by decide) (show IsNormal "models" by decide)

theorem collect_eq_ok : collect t = .ok models ↔ ∃ t', arrange t "models" "sorted" = .ok t' ∧
    ∃ n, FileStore.copyDir t' "sorted" (∅ : FileTree) "models" = .ok (models, n) := by
  simp only [collect, Outcome.bind_eq_ok, Outcome.mapError_eq_ok]
  refine exists_congr fun t' => and_congr_right fun _ => ?_
  obtain ⟨found, n, hcopy, _⟩ := exists_collected t'
  simp [hcopy, pure, Except.pure]

/-- Models are collected exactly if some file lies where they are collected. -/
theorem collect_eq_ok_empty_iff : (∃ models, collect t = .ok models ∧ paths models = []) ↔
    ∃ t', arrange t "models" "sorted" = .ok t' ∧
      ∀ path ∈ paths t', ¬Path.isBelow path "sorted" = true := by
  have hempty : paths (∅ : FileTree) = [] := rfl
  simp only [collect_eq_ok]
  constructor
  · rintro ⟨models, ⟨t', harrange, n, hcopy⟩, hnone⟩
    obtain ⟨found, _, hfound, hpaths⟩ := exists_collected t'
    cases hcopy.symm.trans hfound
    refine ⟨t', harrange, fun path hpath hbelow => ?_⟩
    obtain ⟨rest, hrest⟩ := Option.isSome_iff_exists.mp hbelow
    have hmodel := (hpaths _).mpr (.inr ⟨path, hpath, rest, hrest, rfl⟩)
    rw [hnone] at hmodel
    cases hmodel
  · rintro ⟨t', harrange, hnone⟩
    obtain ⟨found, n, hfound, hpaths⟩ := exists_collected t'
    refine ⟨found, ⟨t', harrange, n, hfound⟩, ?_⟩
    refine List.eq_nil_iff_forall_not_mem.mpr fun path hpath => ?_
    rw [hpaths, hempty] at hpath
    rcases hpath with hpath | ⟨file, hfile, rest, hrest, _⟩
    · cases hpath
    · exact hnone file hfile (by rw [Path.isBelow, hrest]; rfl)

theorem filter_below_subset {dir : String} : ∀ file ∈ (paths t).filter (Path.isBelow · dir),
    file ∈ paths t := fun _ hfile => List.mem_of_mem_filter hfile

/-- Shared schemas can always be copied, since their paths below the target are in normal form. -/
theorem sharedPlace?_of_isBelow (hpath : IsFilePath path)
    (h : Path.isBelow path "models/k8s" = true) :
    ∃ place, sharedPlace? "models/k8s" "sorted/k8s" path = some place ∧
      Path.normalizeFile place = .ok place ∧ Path.isBelow place "sorted" = true := by
  obtain ⟨rest, hrest⟩ := Option.isSome_iff_exists.mp h
  have hfile := Path.isFilePath_below? hpath hrest
  have hplace := Path.isFilePath_join (show IsNormal "sorted/k8s" by decide) hfile
  refine ⟨_, by rw [sharedPlace?, hrest]; rfl, Path.normalizeFile_of_isFilePath hplace, ?_⟩
  have hsplit : "sorted/k8s" ++ "/" ++ rest = "sorted" ++ "/" ++ ("k8s" ++ "/" ++ rest) := by
    rw [← String.append_assoc, ← String.append_assoc]
    rfl
  rw [Path.join_of_ne (by decide) hfile.2, hsplit, Path.isBelow,
    Path.below?_append_slash (by decide)]
  rfl

theorem kindPlace?_eq_some {place : String} (h : ¬Path.isBelow path "models/k8s" = true) :
    kindPlace? "models/k8s" "sorted" path = some place ↔
      ∃ rest, relocated? (Path.fileName path) = some rest ∧ Path.join "sorted" rest = place := by
  rw [kindPlace?, if_neg h, Option.map_eq_some_iff]

theorem collect_empty_iff (hnormal : PathsNormal t)
    (hown : ∀ path ∈ importerFiles, lookup? t path = none) :
    (∃ models, collect t = .ok models ∧ paths models = []) ↔
      ∀ path ∈ paths t, IsPassedOver path := by
  rw [collect_eq_ok_empty_iff]
  constructor
  · rintro ⟨t', harrange, hnone⟩ path hpath
    obtain ⟨t₁, hshared, hkinds⟩ := (arrange_eq_ok hown).mp harrange
    have hmem₁ := mem_paths_copyAll filter_below_subset hshared
    have hmem := mem_paths_copyAll filter_below_subset hkinds
    have hkept : path ∈ paths t₁ := (hmem₁ path).mpr (.inl hpath)
    have hnotShared : ¬Path.isBelow path "models/k8s" = true := by
      intro hbelow
      obtain ⟨place, hplace, hkey, hsorted⟩ := sharedPlace?_of_isBelow (hnormal path hpath) hbelow
      refine hnone place ((hmem place).mpr (.inl ((hmem₁ place).mpr (.inr ?_)))) hsorted
      exact ⟨path, List.mem_filter.mpr ⟨hpath, hbelow⟩, place, hplace, hkey⟩
    refine ⟨hnone path ((hmem path).mpr (.inl hkept)), hnotShared, fun hbelow rest hrest => ?_⟩
    have hlisted : path ∈ (paths t₁).filter (Path.isBelow · "models") :=
      List.mem_filter.mpr ⟨hkept, hbelow⟩
    have hplace := (kindPlace?_eq_some hnotShared).mpr ⟨rest, hrest, rfl⟩
    have hplaceable := (exists_copyAll_iff filter_below_subset).mp ⟨t', hkinds⟩
    obtain ⟨key, hkey⟩ := hplaceable path hlisted _ hplace
    exact ⟨key, hkey, hnone key ((hmem key).mpr (.inr ⟨path, hlisted, _, hplace, hkey⟩))⟩
  · intro hpassed
    -- no file is a shared schema, so the first of the two copies does nothing
    have hshared : (paths t).filter (Path.isBelow · "models/k8s") = [] :=
      List.filter_eq_nil_iff.mpr fun path hpath => (hpassed path hpath).not_shared
    have hplaces : ∀ path ∈ (paths t).filter (Path.isBelow · "models"), ∀ place,
        kindPlace? "models/k8s" "sorted" path = some place →
          ∃ key, Path.normalizeFile place = .ok key ∧ ¬Path.isBelow key "sorted" = true := by
      intro path hpath place hplace
      obtain ⟨hpath, hbelow⟩ := List.mem_filter.mp hpath
      obtain ⟨rest, hrest, rfl⟩ := (kindPlace?_eq_some (hpassed path hpath).not_shared).mp hplace
      exact (hpassed path hpath).not_placed hbelow rest hrest
    obtain ⟨t', hkinds⟩ := (exists_copyAll_iff filter_below_subset).mpr
      fun path hpath place hplace => (hplaces path hpath place hplace).imp fun _ => And.left
    refine ⟨t', (arrange_eq_ok hown).mpr ⟨t, by rw [hshared]; rfl, hkinds⟩, fun key hkey => ?_⟩
    rcases (mem_paths_copyAll filter_below_subset hkinds key).mp hkey with
      hkey | ⟨path, hpath, place, hplace, hnormalized⟩
    · exact (hpassed key hkey).not_collected
    · obtain ⟨key', hkey', hout⟩ := hplaces path hpath place hplace
      cases hnormalized.symm.trans hkey'
      exact hout

end

section

variable {σ ω : Type} [FileStore σ] {files : σ} {exclude : List String} {image : String}
  {t : FileTree} {staged : List Staged}

theorem exists_written (h : ∀ s ∈ staged, ∃ path, Path.normalizeFile s.path = .ok path)
    (t : FileTree) :
    ∃ t', staged.foldlM (fun t s => FileStore.write t s.path s.contents) t = .ok t' := by
  induction staged generalizing t with
  | nil => exact ⟨t, rfl⟩
  | cons s rest ih =>
    obtain ⟨path, hpath⟩ := h s List.mem_cons_self
    obtain ⟨t', ht'⟩ := ih (fun s hs => h s (List.mem_cons_of_mem _ hs))
      (FileStore.put t path (.file s.contents))
    refine ⟨t', ?_⟩
    simp only [List.foldlM_cons, FileStore.write, FileStore.writeEntry, hpath]
    exact ht'

/-- Definitions are staged in files whose names say that they are YAML. -/
theorem isYaml_of_mem_stage (h : stage files exclude = .ok (some t)) {path : String}
    (hpath : path ∈ paths t) : Collect.isYaml path = true := by
  obtain ⟨staged, hstaged, hwritten⟩ := stage_ok h
  obtain ⟨parts, hparts, rfl⟩ := Collect.resources_parts hstaged
  rcases (mem_paths_of_written hwritten path).mp hpath with hnone | ⟨s, hs, hkey⟩
  · cases hnone
  have hends : ∀ tail, Text.endsWith tail s.path = true → tail.toList.any Path.isSeparator = false →
      2 < tail.length → Text.endsWith tail path = true := fun tail htail hclean hlength =>
    endsWith_normalizeFile htail hclean hlength hkey
  obtain ⟨hsource, hkept | ⟨tail, ⟨mark, _, rfl⟩, hadded⟩⟩ := Collect.exists_stagedFrom hparts hs
  · rcases Bool.or_eq_true_iff.mp (Collect.isYaml_of_mem_sources hsource) with hfile | hfile
    · exact Bool.or_eq_true_iff.mpr (.inl (hends _ (hkept ▸ hfile) (by decide) (by decide)))
    · exact Bool.or_eq_true_iff.mpr (.inr (hends _ (hkept ▸ hfile) (by decide) (by decide)))
  · refine Bool.or_eq_true_iff.mpr (.inl (hends _ ?_ (by decide) (by decide)))
    rw [hadded, ← String.append_assoc]
    exact Text.endsWith_append _ _

theorem lookup?_importerFiles (h : stage files exclude = .ok (some t)) :
    ∀ path ∈ importerFiles, lookup? t path = none := by
  have hnames : ∀ path ∈ importerFiles, Collect.isYaml path = false := by decide
  intro path hpath
  by_contra hsome
  have hmem : path ∈ paths t := FileTree.mem_paths.mpr (Option.isSome_iff_ne_none.mpr hsome)
  exact absurd (isYaml_of_mem_stage h hmem) (Bool.eq_false_iff.mp (hnames path hpath))

/-- A work tree whose files are all passed over gives no models, and only such a tree. -/
theorem collect_stage_iff (h : stage files exclude = .ok (some t))
    (hstaged : Collect.resources files exclude = .ok staged) :
    (∃ models, collect t = .ok models ∧ paths models = []) ↔
      ∀ s ∈ staged, ∃ path, Path.normalizeFile s.path = .ok path ∧ IsPassedOver path := by
  obtain ⟨_, hstaged', hwritten⟩ := stage_ok h
  cases hstaged.symm.trans hstaged'
  rw [collect_empty_iff (stage_pathsNormal h) (lookup?_importerFiles h)]
  constructor
  · intro hpassed s hs
    obtain ⟨path, hpath⟩ := exists_path_of_written hwritten hs
    have hmem := (mem_paths_of_written hwritten path).mpr (.inr ⟨s, hs, hpath⟩)
    exact ⟨path, hpath, hpassed path hmem⟩
  · intro hpassed path hpath
    rcases (mem_paths_of_written hwritten path).mp hpath with hnone | ⟨s, hs, hkey⟩
    · cases hnone
    · obtain ⟨path', hkey', hout⟩ := hpassed s hs
      cases hkey.symm.trans hkey'
      exact hout

theorem stage_of_resources (hstaged : Collect.resources files exclude = .ok staged)
    (hne : staged ≠ []) : stage files exclude =
      ((staged.foldlM (fun t s => FileStore.write t s.path s.contents) (∅ : FileTree)).mapError
        fun cause => .layout (.file cause)).map some := by
  have hempty : staged.isEmpty = false := by simpa using hne
  simp only [stage, hstaged, Except.mapError, bind, Except.bind, hempty, Bool.false_eq_true,
    if_false]
  cases staged.foldlM (fun t s => FileStore.write t s.path s.contents) (∅ : FileTree) <;> rfl

/-- Staging fails if the definitions cannot be read, or if one has a path that no file can have. -/
theorem stage_cases (files : σ) (exclude : List String) :
    (∃ cause, stage files exclude = .error cause ∧
      ∀ staged, Collect.resources files exclude = .ok staged →
        ¬∀ s ∈ staged, ∃ path, Path.normalizeFile s.path = .ok path) ∨
    (stage files exclude = .ok none ∧ Collect.resources files exclude = .ok []) ∨
    ∃ t staged, stage files exclude = .ok (some t) ∧
      Collect.resources files exclude = .ok staged := by
  cases hstaged : Collect.resources files exclude with
  | error cause => exact .inl ⟨_, by rw [stage, hstaged]; rfl, nofun⟩
  | ok staged =>
    by_cases hne : staged = []
    · exact .inr (.inl ⟨by rw [stage, hstaged, hne]; rfl, by rw [hne]⟩)
    have hstage := stage_of_resources hstaged hne
    cases hwritten : staged.foldlM (fun t s => FileStore.write t s.path s.contents)
        (∅ : FileTree) with
    | error cause =>
      rw [hwritten] at hstage
      refine .inl ⟨_, hstage, ?_⟩
      rintro _ ⟨⟩ hpaths
      obtain ⟨t, ht⟩ := exists_written hpaths (∅ : FileTree)
      cases hwritten.symm.trans ht
    | ok t =>
      rw [hwritten] at hstage
      exact .inr (.inr ⟨t, staged, hstage, rfl⟩)

/-- A job that leaves its tree as it is gives no models exactly if all definitions can be staged,
each at a path that is passed over. -/
theorem generate_importedOnly_iff {run : Runner (StateM ω)}
    (hrun : ∀ t request, Yields (run t request) ⟨t, .ok ()⟩) (state : ω) :
    (∃ models, (generate run image files exclude state).1 = .ok models ∧
        ∀ t ∈ models, paths t = []) ↔
      ∃ staged, Collect.resources files exclude = .ok staged ∧
        ∀ s ∈ staged, ∃ path, Path.normalizeFile s.path = .ok path ∧ IsPassedOver path := by
  have hanswers : Sandbox.Answers run fun t _ => ⟨t, .ok ()⟩ := ⟨hrun, fun _ _ => .start⟩
  have hresult : (generate run image files exclude state).1 = _ := generate_yields hanswers state
  rw [hresult, generate_eq]
  rcases stage_cases files exclude with ⟨cause, hstage, hfault⟩ | ⟨hstage, hstaged⟩ |
    ⟨t, staged, hstage, hstaged⟩
  · rw [hstage]
    refine iff_of_false ?_ ?_
    · rintro ⟨models, hmodels, _⟩
      cases hmodels
    · rintro ⟨staged, hstaged, hpaths⟩
      exact hfault staged hstaged fun s hs => (hpaths s hs).imp fun _ => And.left
  · rw [hstage]
    refine iff_of_true ⟨none, rfl, nofun⟩ ⟨[], hstaged, fun s hs => absurd hs List.not_mem_nil⟩
  · rw [hstage]
    have hiff := collect_stage_iff hstage hstaged
    simp only [hstaged, Except.ok.injEq, exists_eq_left', ← hiff]
    constructor
    · rintro ⟨models, hmodels, hnone⟩
      obtain ⟨found, hfound, rfl⟩ := Outcome.map_eq_ok.mp hmodels
      exact ⟨found, hfound, hnone found rfl⟩
    · rintro ⟨found, hfound, hnone⟩
      refine ⟨some found, Outcome.map_eq_ok.mpr ⟨found, hfound, rfl⟩, ?_⟩
      rintro _ ⟨⟩
      exact hnone

end

/-- A project with one definition. -/
def definitionAt (path : String) : FileTree :=
  .ofEntries
    [(path, .file (Text.encode ("\x7bkind: CustomResourceDefinition, " ++
      "spec: \x7bgroup: g, names: \x7bkind: K\x7d\x7d\x7d")))]

def ownFolder : FileTree := definitionAt "apis/models.yaml"

/-- The definition lies where shared schemas are looked for. -/
def lookalike : FileTree := definitionAt "models/k8s/definition.yaml"

def modelPaths : Except KclError (Option FileTree) → Option (Option (List String))
  | .ok models => some (models.map paths)
  | .error _ => none

theorem exists_of_modelPaths {result : Except KclError (Option FileTree)}
    {found : Option (List String)} (h : modelPaths result = some found) :
    ∃ models, result = .ok models ∧ models.map paths = found := by
  cases result with
  | error cause => cases h
  | ok models => exact ⟨models, rfl, Option.some.inj h⟩

/-- Jobs that no rule is for do nothing. -/
theorem yields_byRules_nil (t : FileTree) (request : Request) :
    Yields (Sandbox.byRules [] t request) ⟨t, .ok ()⟩ :=
  (Sandbox.byRules_answers []).answer t request

theorem ownFolder_evaluated :
    modelPaths (generate (Sandbox.byRules []) defaultImage ownFolder [] []).1 = some (some []) := by
  decide +kernel

theorem lookalike_evaluated :
    modelPaths (generate (Sandbox.byRules []) defaultImage lookalike [] []).1 =
      some (some ["models/k8s/definition.yaml"]) := by
  decide +kernel

theorem ownFolder_importedOnly :
    (∀ t request, Yields (Sandbox.byRules [] t request) ⟨t, .ok ()⟩) ∧
      (∃ models, (generate (Sandbox.byRules []) defaultImage ownFolder [] []).1 = .ok models ∧
        ∀ t ∈ models, paths t = []) ∧
      ∃ staged, Collect.resources ownFolder [] = .ok staged ∧
        ∀ s ∈ staged, ∃ path, Path.normalizeFile s.path = .ok path ∧ IsPassedOver path := by
  obtain ⟨models, hmodels, hpaths⟩ := exists_of_modelPaths ownFolder_evaluated
  have hnone : ∃ models,
      (generate (Sandbox.byRules []) defaultImage ownFolder [] []).1 = .ok models ∧
      ∀ t ∈ models, paths t = [] := by
    refine ⟨models, hmodels, fun t ht => ?_⟩
    rw [Option.mem_def.mp ht] at hpaths
    exact Option.some.inj hpaths
  exact ⟨yields_byRules_nil, hnone, (generate_importedOnly_iff yields_byRules_nil []).mp hnone⟩

/-- The definition is handed on as a shared schema. -/
theorem lookalike_not_importedOnly :
    (∀ t request, Yields (Sandbox.byRules [] t request) ⟨t, .ok ()⟩) ∧
      ¬∃ models, (generate (Sandbox.byRules []) defaultImage lookalike [] []).1 = .ok models ∧
        ∀ t ∈ models, paths t = [] := by
  refine ⟨yields_byRules_nil, ?_⟩
  rintro ⟨models, hmodels, hnone⟩
  obtain ⟨found, hfound, hpaths⟩ := exists_of_modelPaths lookalike_evaluated
  cases hmodels.symm.trans hfound
  obtain ⟨t, ht, hown⟩ := Option.map_eq_some_iff.mp hpaths
  rw [hnone t ht] at hown
  cases hown

end ResourceModels.Kcl
