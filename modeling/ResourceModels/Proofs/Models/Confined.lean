import ResourceModels.Proofs.FileStore.Edits
import ResourceModels.Proofs.Go.KindFiles
import ResourceModels.Proofs.JsonSchema.Files
import ResourceModels.Proofs.Models.Generators
import ResourceModels.Proofs.Path.Directory

/-!
# The folder of the models

Models are handed on in a folder of their own. What is copied there from a work tree lies in it, and
so does the file of every component, whose name has no dots left. The path of a Go file is made of
the strings of a definition as they are, so a version or a kind that leads up can lead out of the
folder.
-/

namespace ResourceModels

open FileStore (paths PathsNormal)
open ResourceModels.Path (IsNormal)

/-- All files of a tree lie in the folder of the models. -/
def FileTree.IsConfined (t : FileTree) : Prop :=
  ∀ path ∈ paths t, Path.isBelow path "models" = true

section

variable {t t' : FileTree}

theorem isBelow_models (path : String) (hpath : path ≠ "") :
    Path.isBelow (Path.join "models" path) "models" = true := by
  rw [Path.join_of_ne (by decide) hpath, Path.isBelow, Path.below?_append_slash (by decide)]
  rfl

/-- What is copied to the folder lies in it. -/
theorem isConfined_copyDir {n : Nat} (ht : PathsNormal t)
    (h : FileStore.copyDir t "sorted" (∅ : FileTree) "models" = .ok (t', n)) : t'.IsConfined := by
  obtain ⟨models, _, hmodels, hpaths⟩ := FileStore.exists_copyDir t (∅ : FileTree)
    (show IsNormal "sorted" by decide) (show IsNormal "models" by decide)
  cases h.symm.trans hmodels
  intro path hpath
  rcases (hpaths path).mp hpath with hnone | ⟨file, hfile, rest, hrest, rfl⟩
  · cases hnone
  · exact isBelow_models rest (Path.isFilePath_below? (ht file hfile) hrest).2

theorem Kcl.isConfined_collect (ht : PathsNormal t) (h : collect t = .ok t') :
    t'.IsConfined := by
  obtain ⟨arranged, harrange, hcopy⟩ := Outcome.bind_eq_ok.mp h
  have hnormal := (arrange_edited (Outcome.mapError_eq_ok.mp harrange)).pathsNormal ht
  split at hcopy
  · next models n hmodels =>
    cases hcopy
    exact isConfined_copyDir hnormal hmodels
  · cases hcopy

theorem Python.isConfined_collect (ht : PathsNormal t) (h : collect t = .ok t') :
    t'.IsConfined := by
  obtain ⟨arranged, harrange, hcopy⟩ := Outcome.bind_eq_ok.mp h
  have hnormal := (arrange_edited (Outcome.mapError_eq_ok.mp harrange)).pathsNormal ht
  split at hcopy
  · next models n hmodels =>
    cases hcopy
    exact isConfined_copyDir hnormal hmodels
  · cases hcopy

end

section

variable {ω σ : Type} [FileStore σ] {files : σ} {exclude : List String} {t : FileTree}

/-- A job leaves a tree with paths in normal form, if it is given one. -/
def Sandbox.KeepsPathsNormal (run : Sandbox.Runner (StateM ω)) : Prop :=
  ∀ t request state, PathsNormal t → PathsNormal (run t request state).1.tree

theorem Sandbox.Answers.keepsPathsNormal {run : Sandbox.Runner (StateM ω)}
    {f : FileTree → Sandbox.Request → Sandbox.Outcome} (h : Sandbox.Answers run f) :
    Sandbox.KeepsPathsNormal run := fun t request state ht => by
  have hanswer : (run t request state).1 = f t request := h.answer t request state
  rw [hanswer]
  exact (h.edited t request).pathsNormal ht

section

variable {run : Sandbox.Runner (StateM ω)} {image : String} {state : ω}
  (hrun : Sandbox.KeepsPathsNormal run)

include hrun

theorem Kcl.isConfined_generate (h : (generate run image files exclude state).1 = .ok (some t)) :
    t.IsConfined := by
  rw [generate_eq] at h
  split at h
  · cases h
  · cases h
  · next staged hstage =>
    have hjob := hrun staged (request image) state (stage_pathsNormal hstage)
    exact isConfined_collect hjob (Sandbox.gathered_eq_ok h)

theorem Python.isConfined_generate
    (h : (generate run image files exclude state).1 = .ok (some t)) : t.IsConfined := by
  rw [generate_eq] at h
  split at h
  · cases h
  · next staged hstage =>
    split at h
    · cases h
    · have hjob := hrun staged (request image) state (stage_pathsNormal hstage)
      exact isConfined_collect hjob (Sandbox.gathered_eq_ok h)

end

theorem JsonSchema.isConfined_generate (h : generate files exclude = .ok (some t)) :
    t.IsConfined := by
  obtain ⟨extracts, _, ht⟩ := generate_ok h
  intro path hpath
  rcases (FileTree.mem_paths_writeTexts ht path).mp hpath with hnone | ⟨text, htext, hkey⟩
  · cases hnone
  obtain ⟨c, _, rfl⟩ := List.mem_map.mp htext
  have hdots : ".." ∉ Path.segments (dashed c.1) := fun hmem =>
    dot_not_mem_dashed c.1 (Path.mem_of_mem_segments hmem '.' (by decide))
  obtain ⟨key, hplace, hbelow⟩ := Path.exists_isBelow
    (show Path.IsFilePath "models" by decide) hdots
    (show ∀ c ∈ ".schema.json".toList, Path.isSeparator c = false by simp [Path.isSeparator])
    (by decide)
  have hpath : filePath c.1 = "models" ++ "/" ++ (dashed c.1 ++ ".schema.json") := by
    rw [filePath, fileName, dashed]
    rfl
  rw [hpath] at hkey
  cases hkey.symm.trans hplace
  exact hbelow

namespace Go

/-- No segment that the version or the name of a kind has leads up. -/
def NoClimb (e : Extract) : Prop :=
  ".." ∉ Path.segments e.version ∧ ".." ∉ Path.segments (Text.lower e.kind)

theorem dot_notMem_labels (group : String) :
    '.' ∉ (Text.join "/" ((Text.split (· = '.') group).filter (· ≠ "")).reverse).toList := by
  intro hdot
  rcases Text.mem_of_mem_join hdot with hslash | ⟨label, hlabel, hmem⟩
  · exact absurd hslash (by decide)
  · have hpiece := List.mem_of_mem_filter (List.mem_reverse.mp hlabel)
    exact absurd (Text.noMark_of_mem_split hpiece '.' hmem) (by decide)

theorem exists_filePath?_isBelow {e : Extract} (h : NoClimb e) :
    ∃ path, filePath? e = some path ∧ Path.isBelow path "models" = true := by
  have hlabels : ".." ∉ Path.segments
      (Text.join "/" ((Text.split (· = '.') e.group).filter (· ≠ "")).reverse) := fun hmem =>
    dot_notMem_labels e.group (Path.mem_of_mem_segments hmem '.' (by decide))
  have hfront : ".." ∉ Path.segments
      (Text.join "/" ((Text.split (· = '.') e.group).filter (· ≠ "")).reverse ++ "/" ++ e.version ++
        "/" ++ Text.lower e.kind) := by
    rw [Path.segments_append_slash, Path.segments_append_slash, List.mem_append, List.mem_append]
    rintro ((hmem | hmem) | hmem)
    · exact hlabels hmem
    · exact h.1 hmem
    · exact h.2 hmem
  obtain ⟨path, hpath, hbelow⟩ := Path.exists_isBelow
    (show Path.IsFilePath "models" by decide) hfront
    (show ∀ c ∈ ".go".toList, Path.isSeparator c = false by simp [Path.isSeparator]) (by decide)
  refine ⟨path, ?_, hbelow⟩
  have hparts : modelPath e.group e.kind e.version = "models" ++ "/" ++
      (Text.join "/" ((Text.split (· = '.') e.group).filter (· ≠ "")).reverse ++ "/" ++ e.version ++
        "/" ++ Text.lower e.kind ++ ".go") := by
    simp only [modelPath, String.append_assoc]
    rfl
  rw [filePath?, hparts, hpath]
  rfl

/-- The files of the models are the module file, the shared one and those of the kinds. -/
theorem mem_paths_generate {extracts : List Extract} (h : generate files exclude = .ok (some t))
    (hd : Collect.documents files exclude = .ok extracts) (path : String) :
    path ∈ paths t ↔ path = "models/go.mod" ∨ path = sharedPath ∨
      ∃ e ∈ extracts, filePath? e = some path := by
  obtain ⟨_, hd', start, hstart, ht⟩ := generate_ok h
  cases hd.symm.trans hd'
  obtain ⟨texts, hsources, hwritten⟩ := writeSources_ok ht
  have hmodule : path ∈ paths start ↔ path = "models/go.mod" := by
    have hwrite : FileTree.writeTexts ∅ [("models/go.mod", moduleFile)] = .ok start := by
      rw [FileTree.writeTexts, List.foldlM_cons, hstart]
      rfl
    have hkey : Path.normalizeFile "models/go.mod" = .ok "models/go.mod" := by decide
    rw [FileTree.mem_paths_writeTexts hwrite]
    simp only [List.mem_singleton, exists_eq_left, hkey, Except.ok.injEq]
    exact (or_iff_right fun hnone => by cases hnone).trans eq_comm
  have htext : (∃ text ∈ texts.map fun file => (file.1, file.2.text),
      Path.normalizeFile text.1 = .ok path) ↔
        ∃ place ∈ (sources extracts).map (·.1), Path.normalizeFile place = .ok path := by
    rw [hsources]
    simp
  rw [FileTree.mem_paths_writeTexts hwritten, hmodule, htext]
  refine or_congr_right ?_
  simp only [sources, sharedSource, kindSource, List.map_cons, List.map_map, List.mem_cons,
    List.mem_map, Function.comp_apply, exists_eq_or_imp, exists_exists_and_eq_and]
  refine or_congr ?_ (exists_congr fun e => and_congr_right fun _ => ?_)
  · rw [normalizeFile_sharedPath, Except.ok.injEq, eq_comm]
    rfl
  · rw [filePath?, Outcome.toOption_eq_some]

theorem isConfined_iff {extracts : List Extract} (h : generate files exclude = .ok (some t))
    (hd : Collect.documents files exclude = .ok extracts) :
    t.IsConfined ↔
      ∀ e ∈ extracts, ∃ path, filePath? e = some path ∧ Path.isBelow path "models" = true := by
  have hmem := mem_paths_generate h hd
  constructor
  · intro hconfined e he
    obtain ⟨path, hpath⟩ := exists_filePath?_of_generate h hd e he
    exact ⟨path, hpath, hconfined path ((hmem path).mpr (.inr (.inr ⟨e, he, hpath⟩)))⟩
  · intro hbelow path hpath
    rcases (hmem path).mp hpath with rfl | rfl | ⟨e, he, hown⟩
    · decide
    · decide
    · obtain ⟨found, hfound, hin⟩ := hbelow e he
      cases hown.symm.trans hfound
      exact hin

end Go

end

/-- The models that are found with a job, and the files of the JSON schemas, lie in the folder. The
Go models do if and only if the path of each kind leads there, as it does if no segment of a version
or name leads up. -/
theorem generated_confined_iff {ω σ : Type} [FileStore σ] {run : Sandbox.Runner (StateM ω)}
    (hrun : Sandbox.KeepsPathsNormal run) (image : String) (files : σ) (exclude : List String)
    (state : ω) :
    (∀ t, (Kcl.generate run image files exclude state).1 = .ok (some t) → t.IsConfined) ∧
      (∀ t, (Python.generate run image files exclude state).1 = .ok (some t) → t.IsConfined) ∧
      (∀ t, JsonSchema.generate files exclude = .ok (some t) → t.IsConfined) ∧
      ∀ t, Go.generate files exclude = .ok (some t) →
        ∃ extracts, Collect.documents files exclude = .ok extracts ∧
          (t.IsConfined ↔ ∀ e ∈ extracts, ∃ path, Go.filePath? e = some path ∧
            Path.isBelow path "models" = true) ∧
          ((∀ e ∈ extracts, Go.NoClimb e) → t.IsConfined) := by
  refine ⟨fun t => Kcl.isConfined_generate hrun, fun t => Python.isConfined_generate hrun,
    fun t => JsonSchema.isConfined_generate, fun t ht => ?_⟩
  obtain ⟨extracts, hd, _⟩ := Go.generate_ok ht
  have hiff := Go.isConfined_iff ht hd
  exact ⟨extracts, hd, hiff,
    fun hclimb => hiff.mpr fun e he => Go.exists_filePath?_isBelow (hclimb e he)⟩

namespace Go

theorem nestedAndKind_confined :
    Sandbox.KeepsPathsNormal (Sandbox.byRules []) ∧
      ∃ t extracts, generate nestedAndKind [] = .ok (some t) ∧
        Collect.documents nestedAndKind [] = .ok extracts ∧ (∀ e ∈ extracts, NoClimb e) ∧
        t.IsConfined := by
  have hrun := (Sandbox.byRules_answers []).keepsPathsNormal
  refine ⟨hrun, ?_⟩
  obtain ⟨t, extracts, ht, hd, hkinds⟩ := exists_generate_of_ownAre (by decide) nestedAndKind_kinds
  obtain ⟨_, _, _, hgo⟩ := generated_confined_iff hrun Kcl.defaultImage nestedAndKind [] []
  obtain ⟨_, hd', _, hconfined⟩ := hgo t ht
  cases hd.symm.trans hd'
  have hclimb : ∀ e ∈ extracts, NoClimb e := by
    refine forall_of_names hkinds (P := fun k => ".." ∉ Path.segments k.2.1 ∧
      ".." ∉ Path.segments (Text.lower k.2.2)) ?_
    decide
  exact ⟨t, extracts, ht, hd, hclimb, hconfined hclimb⟩

/-- A kind whose name leads up. -/
def climbing : FileTree :=
  .ofEntries [("a.yaml", Collect.definitionFile "a" "../../../x" "\x7b\x7d")]

theorem holdTexts_climbing :
    Collect.HoldTexts climbing []
      [("a.yaml", Collect.definitionText "a" "../../../x" "\x7b\x7d")] :=
  Collect.holdTexts_ofEntries (.refl _) (by decide) (by decide) (by decide)

theorem climbing_evaluated :
    Collect.ownHold (ownAre [("a", "v", "../../../x")]) (Collect.resources climbing []) = true := by
  rw [holdTexts_climbing.resources_eq]
  simp only [Collect.charsOf, List.map_cons, List.map_nil, Collect.toList_definitionText,
    String.reduceToList]
  decide +kernel

/-- The file of the kind lies beside the folder. -/
theorem climbing_not_confined :
    ∃ t, generate climbing [] = .ok (some t) ∧ "x.go" ∈ paths t ∧ ¬t.IsConfined := by
  obtain ⟨t, extracts, ht, hd, hkinds⟩ := exists_generate_of_ownAre (by decide) climbing_evaluated
  have hpaths : extracts.map filePath? = [some "x.go"] := by
    rw [filePath?_comp_names, ← List.map_map, hkinds]
    decide
  obtain ⟨e, he, hpath⟩ : ∃ e ∈ extracts, filePath? e = some "x.go" :=
    List.mem_map.mp (hpaths ▸ List.mem_singleton.mpr rfl)
  have hmem : "x.go" ∈ paths t :=
    (mem_paths_generate ht hd "x.go").mpr (.inr (.inr ⟨e, he, hpath⟩))
  refine ⟨t, ht, hmem, fun hconfined => ?_⟩
  exact absurd (hconfined "x.go" hmem) (by decide)

end Go

end ResourceModels
