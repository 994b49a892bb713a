import ResourceModels.Proofs.Collect
import ResourceModels.Proofs.Derive
import ResourceModels.Proofs.FileTree
import ResourceModels.Proofs.Outcome
import ResourceModels.Proofs.Text

/-!
# Paths of staged definitions

What a file stages stands at the path of the file with something added to it, or at that very path
if the file holds one resource and nothing else. The paths of one file are always different, and so
are those of two files unless one of them is staged as it is under a path that the other one adds up
to.
-/

namespace ResourceModels.Collect

open FileStore (paths)

/-- The number of a document, which is left out if there is only one. -/
def numberMark (alone : Bool) (index : Nat) : String :=
  if alone then "" else "-" ++ toString index

/-- What tells apart the resources that one document stages. -/
def roleMarks : Manifest → List String
  | .resource _ => [""]
  | .composite x => "-xr" :: (x.claimNames.map fun _ => "-claim").toList
  | .other _ => []

/-- What is added to the path of a file for what one of its documents stages. -/
def tails : Bool → Nat → Manifest → List String
  | true, _, .resource _ => [""]
  | alone, index, m => (roleMarks m).map fun role => numberMark alone index ++ role ++ ".yaml"

def fileTails (manifests : List Manifest) : List String :=
  manifests.zipIdx.flatMap fun m => tails (manifests.length == 1) m.2 m.1

variable {file : String} {contents : ByteArray} {alone : Bool} {index : Nat} {m : Manifest}
  {tail : String} {own staged : List Staged}

theorem stage_paths (h : stage file contents alone index m = .ok own) :
    own.map (·.path) = (tails alone index m).map (file ++ ·) ∧ ∀ s ∈ own, s.source = file := by
  have hbase : (if alone then file else file ++ "-" ++ toString index) =
      file ++ numberMark alone index := by
    unfold numberMark
    split
    · exact String.append_empty.symm
    · exact String.append_assoc ..
  cases m with
  | other kind => cases h; simp [tails, roleMarks]
  | resource r =>
    cases h
    cases alone with
    | true => simp [tails]
    | false => simp [tails, roleMarks, numberMark, written, String.append_assoc]
  | composite x =>
    have hends : "-xr.yaml" = "-xr" ++ ".yaml" ∧ "-claim.yaml" = "-claim" ++ ".yaml" := by decide
    simp only [stage, hbase, hends, Outcome.bind_eq_ok] at h
    obtain ⟨derived, hderived, h⟩ := h
    obtain ⟨_, _, _, rfl⟩ := CompositeDefinition.derive_eq_ok.mp hderived
    cases h
    cases hn : x.claimNames with
    | none => simp [tails, roleMarks, hn, written, String.append_assoc]
    | some n => simp [tails, roleMarks, hn, written, String.append_assoc]

theorem stageFile_paths (h : stageFile file contents = .ok own) :
    ∃ manifests, Manifest.classify file contents = .ok manifests ∧
      own.map (·.path) = (fileTails manifests).map (file ++ ·) ∧ ∀ s ∈ own, s.source = file := by
  simp only [stageFile, Outcome.bind_eq_ok, Outcome.pure_eq_ok, Outcome.mapM_eq_ok] at h
  obtain ⟨manifests, hmanifests, parts, hparts, rfl⟩ := h
  refine ⟨manifests, hmanifests, ?_⟩
  unfold fileTails
  generalize (manifests.length == 1) = alone at hparts ⊢
  generalize manifests.zipIdx = documents at hparts ⊢
  induction hparts with
  | nil => simp
  | cons hpart _ ih =>
    obtain ⟨hpaths, hsources⟩ := stage_paths hpart
    refine ⟨?_, ?_⟩
    · rw [List.flatten_cons, List.map_append, hpaths, ih.1, List.flatMap_cons, List.map_append]
    · intro s hs
      rcases List.mem_append.mp hs with hs | hs
      · exact hsources s hs
      · exact ih.2 s hs

theorem mem_tails (h : tail ∈ tails alone index m) :
    tail = "" ∧ alone = true ∨
      ∃ role ∈ roleMarks m, (alone = true → role ≠ "") ∧
        tail = numberMark alone index ++ role ++ ".yaml" := by
  unfold tails at h
  split at h
  · exact .inl ⟨List.mem_singleton.mp h, rfl⟩
  · next hne =>
    obtain ⟨role, hrole, rfl⟩ := List.mem_map.mp h
    refine .inr ⟨role, hrole, ?_, rfl⟩
    rintro rfl rfl
    cases m with
    | resource r => exact hne r rfl rfl
    | composite x => cases hn : x.claimNames <;> simp [roleMarks, hn] at hrole
    | other kind => cases hrole

/-- A character that stands neither between segments nor before the ending of a path. -/
def isMarkChar (c : Char) : Bool := c != '.' && !Path.isSeparator c

/-- A mark, and an ending. -/
def IsMarked (tail : String) : Prop :=
  ∃ mark : String, mark.toList.all isMarkChar = true ∧ tail = "-" ++ mark ++ ".yaml"

theorem isMarkChar_of_isDigit {c : Char} (h : c.isDigit = true) : isMarkChar c = true := by
  have hne : ∀ d : Char, d.isDigit = false → c ≠ d := by
    rintro d hd rfl
    rw [h] at hd
    cases hd
  have hdot := hne '.' (by decide)
  have hslash := hne '/' (by decide)
  have hback := hne '\\' (by decide)
  simp [isMarkChar, Path.isSeparator, hdot, hslash, hback]

theorem dot_notMem {mark : List Char} (h : mark.all isMarkChar = true) : '.' ∉ mark :=
  fun hdot => absurd (List.all_eq_true.mp h '.' hdot) (by decide)

theorem mem_roleMarks {role : String} (h : role ∈ roleMarks m) :
    role = "" ∨ role = "-xr" ∨ role = "-claim" := by
  cases m with
  | resource r => exact .inl (List.mem_singleton.mp h)
  | composite x => cases hn : x.claimNames <;> simp [roleMarks, hn] at h <;> simp [h]
  | other kind => cases h

theorem eq_or_isMarked (h : tail ∈ tails alone index m) : tail = "" ∨ IsMarked tail := by
  rcases mem_tails h with ⟨rfl, _⟩ | ⟨role, hrole, halone, rfl⟩
  · exact .inl rfl
  right
  have hclean : role.toList.all isMarkChar = true := by
    rcases mem_roleMarks hrole with rfl | rfl | rfl <;> decide
  cases alone with
  | false =>
    refine ⟨toString index ++ role, ?_, by simp [numberMark, String.append_assoc]⟩
    rw [String.toList_append, List.all_append, hclean, Bool.and_true, List.all_eq_true]
    exact fun c hc => isMarkChar_of_isDigit (Text.isDigit_of_mem_toString hc)
  | true =>
    rcases mem_roleMarks hrole with rfl | rfl | rfl
    · exact absurd rfl (halone rfl)
    · exact ⟨"xr", by decide, rfl⟩
    · exact ⟨"claim", by decide, rfl⟩

theorem tails_nodup (alone : Bool) (index : Nat) (m : Manifest) : (tails alone index m).Nodup := by
  unfold tails
  split
  · exact List.nodup_singleton _
  · refine List.Nodup.map ?_ ?_
    · intro role role' h
      exact (String.append_right_inj _).mp ((String.append_left_inj _).mp h)
    · cases m with
      | resource r => exact List.nodup_singleton _
      | composite x => cases hn : x.claimNames <;> simp [roleMarks, hn]
      | other kind => exact List.nodup_nil

theorem index_eq_of_mem_tails {i j : Nat} {m' : Manifest} (h : tail ∈ tails false i m)
    (h' : tail ∈ tails false j m') : i = j := by
  have hform : ∀ {n : Nat} {m : Manifest}, tail ∈ tails false n m →
      ∃ c rest, Char.isDigit c = false ∧ tail.toList = '-' :: (toString n).toList ++ c :: rest := by
    intro n m hm
    rcases mem_tails hm with ⟨_, halone⟩ | ⟨role, hrole, _, rfl⟩
    · cases halone
    · rcases mem_roleMarks hrole with rfl | rfl | rfl
      · exact ⟨'.', "yaml".toList, by decide, by simp [numberMark]⟩
      · exact ⟨'-', "xr.yaml".toList, by decide, by simp [numberMark]⟩
      · exact ⟨'-', "claim.yaml".toList, by decide, by simp [numberMark]⟩
  obtain ⟨c, rest, hc, hlist⟩ := hform h
  obtain ⟨d, rest', hd, hlist'⟩ := hform h'
  rw [hlist] at hlist'
  exact Text.toString_nat_inj_of_append hc hd (List.tail_eq_of_cons_eq hlist')

theorem fileTails_nodup (manifests : List Manifest) : (fileTails manifests).Nodup := by
  refine List.nodup_flatMap.mpr ⟨fun document _ => tails_nodup _ _ _, ?_⟩
  by_cases halone : manifests.length = 1
  · obtain ⟨m, rfl⟩ := List.length_eq_one_iff.mp halone
    exact List.pairwise_singleton _ _
  · have hindex : (manifests.zipIdx.map Prod.snd).Pairwise (· < ·) := by
      rw [List.zipIdx_map_snd]
      exact List.pairwise_lt_range' 1
    refine (List.pairwise_map.mp hindex).imp ?_
    intro a b hlt tail ha hb
    rw [beq_false_of_ne halone] at ha hb
    exact absurd (index_eq_of_mem_tails ha hb) (Nat.ne_of_lt hlt)

theorem exists_stem_of_isYaml (h : isYaml file = true) :
    ∃ stem ending : List Char, (ending = "yaml".toList ∨ ending = "yml".toList) ∧
      file.toList = stem ++ '.' :: ending := by
  rcases Bool.or_eq_true_iff.mp h with h | h
  · obtain ⟨stem, hstem⟩ := List.isSuffixOf_iff_suffix.mp h
    exact ⟨stem, _, .inl rfl, hstem.symm⟩
  · obtain ⟨stem, hstem⟩ := List.isSuffixOf_iff_suffix.mp h
    exact ⟨stem, _, .inr rfl, hstem.symm⟩

/-- Marks hold no dots, so the ending of the file stands before the last dot but one. -/
theorem eq_of_marked {file' tail' : String} (hf : isYaml file = true) (hf' : isYaml file' = true)
    (ht : IsMarked tail) (ht' : IsMarked tail') (h : file ++ tail = file' ++ tail') :
    file = file' := by
  obtain ⟨mark, hmark, rfl⟩ := ht
  obtain ⟨mark', hmark', rfl⟩ := ht'
  obtain ⟨stem, ending, hending, hfile⟩ := exists_stem_of_isYaml hf
  obtain ⟨stem', ending', hending', hfile'⟩ := exists_stem_of_isYaml hf'
  simp only [← String.append_assoc, String.append_left_inj] at h
  have hlist : (stem ++ '.' :: (ending ++ '-' :: mark.toList)) =
      stem' ++ '.' :: (ending' ++ '-' :: mark'.toList) := by
    have hl := congrArg String.toList h
    simp only [String.toList_append, hfile, hfile'] at hl
    simpa using hl
  have hnone : ∀ {ending mark : List Char}, ending = "yaml".toList ∨ ending = "yml".toList →
      '.' ∉ mark → '.' ∉ ending ++ '-' :: mark := by
    intro ending mark hending hmark
    rcases hending with rfl | rfl <;> simpa using hmark
  obtain ⟨rfl, hrest⟩ := Text.eq_of_last_mark (hnone hending (dot_notMem hmark))
    (hnone hending' (dot_notMem hmark')) hlist
  rw [← String.toList_inj, hfile, hfile']
  rcases hending with rfl | rfl <;> rcases hending' with rfl | rfl <;> simp at hrest ⊢

/-- What one file stages: resources of its own, at its path with the tails of its documents. -/
structure StagedFrom (file : String) (own : List Staged) : Prop where
  source : ∀ s ∈ own, s.source = file
  paths : ∃ manifests, own.map (·.path) = (fileTails manifests).map (file ++ ·)

theorem StagedFrom.nodup (h : StagedFrom file own) : (own.map (·.path)).Nodup := by
  obtain ⟨manifests, hpaths⟩ := h.paths
  rw [hpaths]
  exact (fileTails_nodup manifests).map fun _ _ htails => (String.append_right_inj file).mp htails

theorem StagedFrom.path_cases (h : StagedFrom file own) {s : Staged} (hs : s ∈ own) :
    s.path = file ∨ ∃ tail, IsMarked tail ∧ s.path = file ++ tail := by
  obtain ⟨manifests, hpaths⟩ := h.paths
  have hpath : s.path ∈ (fileTails manifests).map (file ++ ·) := hpaths ▸ List.mem_map_of_mem hs
  obtain ⟨tail, htail, heq⟩ := List.mem_map.mp hpath
  obtain ⟨document, _, hdocument⟩ := List.mem_flatMap.mp htail
  rcases eq_or_isMarked hdocument with rfl | hmarked
  · exact .inl (by simpa using heq.symm)
  · exact .inr ⟨tail, hmarked, heq.symm⟩

section

variable {σ : Type} [FileStore σ] {files : σ} {exclude : List String}

theorem resources_parts (h : resources files exclude = .ok staged) :
    ∃ parts, List.Forall₂ StagedFrom (sources files exclude) parts ∧ staged = parts.flatten := by
  simp only [resources, Outcome.bind_eq_ok, Outcome.pure_eq_ok, Outcome.mapM_eq_ok] at h
  obtain ⟨parts, hparts, rfl⟩ := h
  refine ⟨parts, hparts.imp fun file own hown => ?_, rfl⟩
  split at hown
  · obtain ⟨manifests, _, hpaths, hsource⟩ := stageFile_paths hown
    exact ⟨hsource, manifests, hpaths⟩
  · cases hown

theorem exists_stagedFrom {sources : List String} {parts : List (List Staged)}
    (h : List.Forall₂ StagedFrom sources parts) {s : Staged} (hs : s ∈ parts.flatten) :
    s.source ∈ sources ∧ (s.path = s.source ∨ ∃ tail, IsMarked tail ∧ s.path = s.source ++ tail) := by
  induction h with
  | nil => cases hs
  | cons hown _ ih =>
    rcases List.mem_append.mp hs with hs | hs
    · have hsource := hown.source s hs
      rw [hsource]
      exact ⟨List.mem_cons_self, hown.path_cases hs⟩
    · exact ⟨List.mem_cons_of_mem _ (ih hs).1, (ih hs).2⟩

theorem isFilePath_of_isMarked {tail : String} (hfile : Path.IsFilePath file) (h : IsMarked tail) :
    Path.IsFilePath (file ++ tail) := by
  obtain ⟨mark, hmark, rfl⟩ := h
  refine Path.isFilePath_append hfile ?_ ?_
  · have hmarkChar : ∀ c ∈ mark.toList, Path.isSeparator c = false := by
      intro c hc
      have hc' := (Bool.and_eq_true_iff.mp (List.all_eq_true.mp hmark c hc)).2
      exact Bool.not_eq_true' _ |>.mp hc'
    have hending : ".yaml".toList.any Path.isSeparator = false := by decide
    rw [List.any_eq_false] at hending
    intro c hc
    simp only [String.toList_append, List.mem_append] at hc
    rcases hc with (hc | hc) | hc
    · rw [List.mem_singleton.mp hc]
      decide
    · exact hmarkChar c hc
    · exact Bool.eq_false_of_not_eq_true (hending c hc)
  · have hlength : ".yaml".length = 5 := by decide
    rw [String.length_append, hlength]
    omega

/-- Where a resource is staged under the path of its file, nothing of another file is. -/
def KeepsApart (staged : List Staged) : Prop :=
  ∀ s ∈ staged, s.path = s.source → ∀ other ∈ staged, other.path = s.source →
    other.source = s.source

theorem isYaml_of_mem_sources (h : file ∈ sources files exclude) : isYaml file = true :=
  (Bool.and_eq_true_iff.mp (List.mem_filter.mp h).2).1

/-- Two staged resources share a path only if they come from one file or one of them keeps the path
of its file. -/
theorem source_eq_of_path_eq {sources : List String} {parts : List (List Staged)}
    (hyaml : ∀ file ∈ sources, isYaml file = true) (h : List.Forall₂ StagedFrom sources parts)
    (hapart : KeepsApart parts.flatten) {s s' : Staged} (hs : s ∈ parts.flatten)
    (hs' : s' ∈ parts.flatten) (hpath : s.path = s'.path) : s.source = s'.source := by
  obtain ⟨hsource, hcases⟩ := exists_stagedFrom h hs
  obtain ⟨hsource', hcases'⟩ := exists_stagedFrom h hs'
  rcases hcases with hkept | ⟨tail, hmarked, hs_path⟩
  · exact (hapart s hs hkept s' hs' (hpath ▸ hkept)).symm
  rcases hcases' with hkept' | ⟨tail', hmarked', hs'_path⟩
  · exact hapart s' hs' hkept' s hs (hpath.trans hkept')
  · rw [hs_path, hs'_path] at hpath
    exact eq_of_marked (hyaml _ hsource) (hyaml _ hsource') hmarked hmarked' hpath

theorem nodup_of_source_eq {sources : List String} {parts : List (List Staged)}
    (hsources : sources.Nodup) (h : List.Forall₂ StagedFrom sources parts)
    (hsame : ∀ s ∈ parts.flatten, ∀ s' ∈ parts.flatten, s.path = s'.path → s.source = s'.source) :
    (parts.flatten.map (·.path)).Nodup := by
  induction h with
  | nil => exact List.nodup_nil
  | cons hown hmore ih =>
    obtain ⟨hfile, hrest⟩ := List.nodup_cons.mp hsources
    rw [List.flatten_cons, List.map_append, List.nodup_append]
    refine ⟨hown.nodup, ih hrest ?_, ?_⟩
    · intro s hs s' hs'
      exact hsame s (List.mem_append_right _ hs) s' (List.mem_append_right _ hs')
    · intro path hpath path' hpath' heq
      obtain ⟨s, hs, rfl⟩ := List.mem_map.mp hpath
      obtain ⟨s', hs', rfl⟩ := List.mem_map.mp hpath'
      have hsource := hsame s (List.mem_append_left _ hs) s' (List.mem_append_right _ hs') heq
      rw [hown.source s hs] at hsource
      exact hfile (hsource ▸ (exists_stagedFrom hmore hs').1)

theorem sources_nodup [FileStore.Lawful σ] (files : σ) (exclude : List String) :
    (sources files exclude).Nodup :=
  ((FileStore.Lawful.paths_pairwise files).imp fun hlt => ne_of_lt hlt).filter _

theorem isFilePath_of_staged (hpaths : FileStore.PathsNormal files)
    (h : resources files exclude = .ok staged) : ∀ s ∈ staged, Path.IsFilePath s.path := by
  obtain ⟨parts, hparts, rfl⟩ := resources_parts h
  intro s hs
  obtain ⟨hsource, hcases⟩ := exists_stagedFrom hparts hs
  have hfile := hpaths s.source (List.mem_of_mem_filter hsource)
  rcases hcases with hkept | ⟨tail, hmarked, hadded⟩
  · rw [hkept]
    exact hfile
  · rw [hadded]
    exact isFilePath_of_isMarked hfile hmarked

theorem paths_nodup_iff [FileStore.Lawful σ] (h : resources files exclude = .ok staged) :
    (staged.map (·.path)).Nodup ↔ KeepsApart staged := by
  obtain ⟨parts, hparts, rfl⟩ := resources_parts h
  constructor
  · intro hnodup s hs hkept other hother hpath
    have hsame : other = s := List.inj_on_of_nodup_map hnodup hother hs (hpath.trans hkept.symm)
    rw [hsame]
  · intro hapart
    refine nodup_of_source_eq (sources_nodup files exclude) hparts fun s hs s' hs' hpath => ?_
    exact source_eq_of_path_eq (fun _ => isYaml_of_mem_sources) hparts hapart hs hs' hpath

end

/-- A file with two documents, and one with the name that the first of them gets. -/
def numberedAndNamed : FileTree :=
  .ofEntries
    [("a.yaml", .file (Text.encode ("\x7bkind: CustomResourceDefinition, " ++
        "spec: \x7bgroup: g, names: \x7bkind: K\x7d\x7d\x7d\n---\n\x7bkind: Other\x7d"))),
      ("a.yaml-0.yaml", .file (Text.encode ("\x7bkind: CustomResourceDefinition, " ++
        "spec: \x7bgroup: g, names: \x7bkind: L\x7d\x7d\x7d")))]

/-- The sources and the paths of what was staged. -/
def stagedPaths : Except DefinitionError (List Staged) → Option (List (String × String))
  | .ok staged => some (staged.map fun s => (s.source, s.path))
  | .error _ => none

theorem holdTexts_numberedAndNamed :
    HoldTexts numberedAndNamed []
      [("a.yaml", "\x7bkind: CustomResourceDefinition, " ++
          "spec: \x7bgroup: g, names: \x7bkind: K\x7d\x7d\x7d\n---\n\x7bkind: Other\x7d"),
        ("a.yaml-0.yaml", "\x7bkind: CustomResourceDefinition, " ++
          "spec: \x7bgroup: g, names: \x7bkind: L\x7d\x7d\x7d")] :=
  holdTexts_ofEntries (.refl _) (by decide) (by decide) (by decide)

theorem numberedAndNamed_evaluated : stagedPaths (resources numberedAndNamed []) =
    some [("a.yaml", "a.yaml-0.yaml"), ("a.yaml-0.yaml", "a.yaml-0.yaml")] := by
  rw [holdTexts_numberedAndNamed.resources_eq]
  simp only [charsOf, List.map_cons, List.map_nil, String.toList_append, String.reduceToList]
  decide +kernel

theorem exists_of_stagedPaths {result : Except DefinitionError (List Staged)}
    {pairs : List (String × String)} (h : stagedPaths result = some pairs) :
    ∃ staged, result = .ok staged ∧ staged.map (fun s => (s.source, s.path)) = pairs := by
  cases result with
  | error cause => cases h
  | ok staged => exact ⟨staged, rfl, Option.some.inj h⟩

theorem numberedAndNamed_paths_nodup_iff :
    ∃ staged, resources numberedAndNamed [] = .ok staged ∧
      ((staged.map (·.path)).Nodup ↔ KeepsApart staged) := by
  obtain ⟨staged, hstaged, _⟩ := exists_of_stagedPaths numberedAndNamed_evaluated
  exact ⟨staged, hstaged, paths_nodup_iff hstaged⟩

theorem numberedAndNamed_share_path :
    ∃ staged, resources numberedAndNamed [] = .ok staged ∧ ¬(staged.map (·.path)).Nodup := by
  obtain ⟨staged, hstaged, hpairs⟩ := exists_of_stagedPaths numberedAndNamed_evaluated
  refine ⟨staged, hstaged, ?_⟩
  have hpaths := congrArg (List.map Prod.snd) hpairs
  rw [List.map_map] at hpaths
  rw [show staged.map (·.path) = _ from hpaths]
  decide

end ResourceModels.Collect
