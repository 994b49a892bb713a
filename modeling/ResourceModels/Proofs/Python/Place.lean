import ResourceModels.Proofs.Path.Directory
import ResourceModels.Python

/-!
# Where the modules of kinds go

The generator lays the module of a kind at its reversed group, in a file named after the version.
Two kinds are moved to one place exactly if they have one version and one name, and the group of one
of them is the group of the other with that name as a label in front.
-/

namespace ResourceModels.Python

/-- A kind of a group in one version, by its name in small letters. -/
@[ext]
structure Kind where
  group : String
  version : String
  name : String
deriving DecidableEq

/-- A text of letters, digits and hyphens, such as a label of a domain name. -/
def IsLabel (s : String) : Prop := s ≠ "" ∧ ∀ c ∈ s.toList, c.isAlphanum = true ∨ c = '-'

instance (s : String) : Decidable (IsLabel s) :=
  decidable_of_iff (s ≠ "" ∧ s.toList.all (fun c => c.isAlphanum || c == '-') = true)
    (by simp [IsLabel])

theorem IsLabel.notMem {s : String} (h : IsLabel s) {c : Char} (hc : c.isAlphanum = false)
    (hhyphen : c ≠ '-') : c ∉ s.toList := by
  intro hmem
  rcases h.2 c hmem with hletter | rfl
  · simp [hc] at hletter
  · exact hhyphen rfl

theorem IsLabel.noSeparator {s : String} (h : IsLabel s) :
    ∀ c ∈ s.toList, Path.isSeparator c = false :=
  Path.noSeparator_iff.mpr
    ⟨h.notMem (by decide) (by decide), h.notMem (by decide) (by decide)⟩

theorem IsLabel.isPlain {s : String} (h : IsLabel s) : Path.IsPlain s := by
  have hdot : '.' ∉ s.toList := h.notMem (by decide) (by decide)
  refine ⟨h.1, ?_, ?_⟩
  · rintro rfl
    exact hdot (by decide)
  · rintro rfl
    exact hdot (by decide)

theorem IsLabel.noSeparator_file {version : String} (h : IsLabel version) :
    ∀ c ∈ (version ++ ".py").toList, Path.isSeparator c = false :=
  Path.noSeparator_append h.noSeparator (by simp [Path.isSeparator])

theorem IsLabel.slash_notMem_file {version : String} (h : IsLabel version) :
    '/' ∉ (version ++ ".py").toList := fun hmem =>
  absurd (h.noSeparator_file '/' hmem) (by decide)

/-- The place of a module whose directory has the given labels, the innermost first. -/
def modulePath (labels : List String) (version : String) : String :=
  Text.join "/" labels.reverse ++ "/" ++ (version ++ ".py")

section

variable {labels labels' : List String} {version version' : String}

theorem segments_modulePath (hne : labels ≠ []) (hlabels : ∀ label ∈ labels, IsLabel label)
    (hversion : IsLabel version) :
    Path.segments (modulePath labels version) = labels.reverse ++ [version ++ ".py"] := by
  have hreverse : labels.reverse ≠ [] := List.reverse_eq_nil_iff.not.mpr hne
  rw [modulePath, ← Text.join_concat "/" hreverse]
  apply Path.segments_join (by simp)
  intro s hs
  rcases List.mem_append.mp hs with hs | hs
  · exact (hlabels s (List.mem_reverse.mp hs)).noSeparator
  · rw [List.mem_singleton.mp hs]
    exact hversion.noSeparator_file

theorem isFilePath_modulePath (hne : labels ≠ []) (hlabels : ∀ label ∈ labels, IsLabel label)
    (hversion : IsLabel version) : Path.IsFilePath (modulePath labels version) := by
  rw [Path.isFilePath_iff, segments_modulePath hne hlabels hversion]
  constructor
  · intro s hs
    rcases List.mem_append.mp hs with hs | hs
    · exact (hlabels s (List.mem_reverse.mp hs)).isPlain
    · rw [List.mem_singleton.mp hs]
      apply Path.isPlain_of_length
      have hending : ".py".length = 3 := by decide
      rw [String.length_append, hending]
      omega
  · intro hmem
    rw [modulePath, String.toList_append, String.toList_append, List.mem_append,
      List.mem_append] at hmem
    rcases hmem with (hmem | hmem) | hmem
    · rcases Text.mem_of_mem_join hmem with hmem | ⟨label, hlabel, hmem⟩
      · exact absurd hmem (by decide)
      · exact (hlabels label (List.mem_reverse.mp hlabel)).notMem (by decide) (by decide) hmem
    · exact absurd hmem (by decide)
    · exact absurd (hversion.noSeparator_file _ hmem) (by decide)

theorem modulePath_inj (hne : labels ≠ []) (hlabels : ∀ label ∈ labels, IsLabel label)
    (hversion : IsLabel version) (hne' : labels' ≠ [])
    (hlabels' : ∀ label ∈ labels', IsLabel label) (hversion' : IsLabel version') :
    modulePath labels version = modulePath labels' version' ↔
      version = version' ∧ labels = labels' := by
  constructor
  · intro heq
    have hsegments := congrArg Path.segments heq
    rw [segments_modulePath hne hlabels hversion, segments_modulePath hne' hlabels' hversion']
      at hsegments
    obtain ⟨hreverse, hfile⟩ := List.append_inj' hsegments rfl
    rw [List.singleton_inj, String.append_left_inj] at hfile
    exact ⟨hfile, List.reverse_inj.mp hreverse⟩
  · rintro ⟨rfl, rfl⟩
    rfl

end

namespace Kind

def labels (k : Kind) : List String := Text.split (· = '.') k.group

/-- The directory of the reversed group. -/
def directory (k : Kind) : String :=
  String.ofList ((reverseGroup k.group).toList.map fun c => if c = '.' then '/' else c)

/-- Where the generator writes the module, within the package of the kind. -/
def module (k : Kind) : String := k.directory ++ "/" ++ (k.version ++ ".py")

structure WellNamed (k : Kind) : Prop where
  labels : ∀ label ∈ k.labels, IsLabel label
  version : IsLabel k.version
  name : IsLabel k.name

/-- A kind whose group is made of labels, and whose version is one. -/
structure Labelled (k : Kind) : Prop where
  labels : ∀ label ∈ k.labels, IsLabel label
  version : IsLabel k.version

/-- Besides, a name that is no more than one segment of a path. -/
structure Placed (k : Kind) : Prop extends k.Labelled where
  noSeparator : ∀ c ∈ k.name.toList, Path.isSeparator c = false

/-- Besides, a name without the mark that joins group, version and name to the name of a file. -/
structure Named (k : Kind) : Prop extends k.Placed where
  noMark : '_' ∉ k.name.toList

instance : DecidablePred Placed := fun k =>
  decidable_of_iff (((∀ label ∈ k.labels, IsLabel label) ∧ IsLabel k.version) ∧
      k.name.toList.any Path.isSeparator = false)
    ⟨fun h => ⟨⟨h.1.1, h.1.2⟩, by simpa using h.2⟩,
      fun h => ⟨⟨h.labels, h.version⟩, by simpa using h.noSeparator⟩⟩

instance : DecidablePred Named := fun k =>
  decidable_of_iff (k.Placed ∧ '_' ∉ k.name.toList)
    ⟨fun h => ⟨h.1, h.2⟩, fun h => ⟨h.toPlaced, h.noMark⟩⟩

theorem WellNamed.placed {k : Kind} (h : k.WellNamed) : k.Placed :=
  ⟨⟨h.labels, h.version⟩, h.name.noSeparator⟩

/-- The labels of the directory that the module is moved to, the innermost first. -/
def home (k : Kind) : List String :=
  if k.labels.head? = some k.name then k.labels else k.name :: k.labels

/-- The group of `x` is that of `y` with the name of both kinds in front. -/
def Inside (x y : Kind) : Prop :=
  x.version = y.version ∧ x.name = y.name ∧ x.group = x.name ++ "." ++ y.group ∧
    y.labels.head? ≠ some y.name

variable {k x y : Kind}

theorem labels_ne_nil (k : Kind) : k.labels ≠ [] := by
  simpa [labels, Text.split] using Text.splitList_ne_nil (· = '.') k.group.toList

theorem join_labels (k : Kind) : Text.join "." k.labels = k.group := Text.join_split '.' k.group

theorem dot_notMem_labels (k : Kind) : ∀ label ∈ k.labels, '.' ∉ label.toList := by
  intro label hlabel hdot
  obtain ⟨piece, hpiece, rfl⟩ := List.mem_map.mp hlabel
  rw [String.toList_ofList] at hdot
  simpa using Text.noMark_of_mem_splitList hpiece '.' hdot

theorem directory_eq (k : Kind) : k.directory = Text.join "/" k.labels.reverse :=
  Text.map_join fun label hlabel => k.dot_notMem_labels label (List.mem_reverse.mp hlabel)

theorem module_eq (k : Kind) : k.module = modulePath k.labels k.version := by
  rw [module, modulePath, directory_eq]

theorem WellNamed.directory_ne (h : k.WellNamed) : k.directory ≠ "" := by
  rw [directory_eq]
  obtain ⟨first, rest, hlabels⟩ := List.exists_cons_of_ne_nil
    (List.reverse_eq_nil_iff.not.mpr k.labels_ne_nil)
  rw [hlabels]
  refine Text.join_ne_empty "/" (h.labels first ?_).1 rest
  exact List.mem_reverse.mp (hlabels ▸ List.mem_cons_self)

theorem WellNamed.file_ne_marker (h : k.WellNamed) : k.version ++ ".py" ≠ marker := by
  intro heq
  have hmem : '_' ∈ (k.version ++ ".py").toList := heq ▸ (by decide)
  rw [String.toList_append, List.mem_append] at hmem
  rcases hmem with hmem | hmem
  · exact h.version.notMem (by decide) (by decide) hmem
  · exact absurd hmem (by decide)

/-- The innermost directory of the reversed group is named after its first label. -/
theorem WellNamed.fileName_directory (h : k.WellNamed) :
    some (Path.fileName k.directory) = k.labels.head? := by
  obtain ⟨first, rest, hlabels⟩ := List.exists_cons_of_ne_nil k.labels_ne_nil
  have hfirst : '/' ∉ first.toList := fun hmem =>
    (h.labels first (hlabels ▸ List.mem_cons_self)).notMem (by decide) (by decide) hmem
  rw [directory_eq, hlabels, List.reverse_cons, List.head?_cons, Option.some.injEq]
  by_cases hrest : rest.reverse = []
  · rw [hrest]
    exact Path.fileName_of_notMem hfirst
  · rw [Text.join_concat "/" hrest]
    exact Path.fileName_append_slash hfirst

theorem WellNamed.relocated?_module (h : k.WellNamed) :
    relocated? k.module k.name = some (modulePath k.home k.version) := by
  have hparent : Path.parent k.module = k.directory :=
    Path.parent_append_slash h.version.slash_notMem_file
  have hfile : Path.fileName k.module = k.version ++ ".py" :=
    Path.fileName_append_slash h.version.slash_notMem_file
  have hname : Path.fileName k.directory = k.name ↔ k.labels.head? = some k.name := by
    rw [← h.fileName_directory, Option.some.injEq]
  have hnot : ¬(k.directory = "" ∨ k.version ++ ".py" = marker) :=
    not_or.mpr ⟨h.directory_ne, h.file_ne_marker⟩
  simp only [relocated?, hparent, hfile, if_neg hnot, hname, home]
  split
  · rw [module_eq]
  · have hhome : Path.join k.directory k.name ≠ "" := by
      simp [Path.join_of_ne h.directory_ne h.name.1]
    have hreverse : k.labels.reverse ≠ [] := List.reverse_eq_nil_iff.not.mpr k.labels_ne_nil
    rw [Path.join_of_ne hhome (by simp), Path.join_of_ne h.directory_ne h.name.1, modulePath,
      List.reverse_cons, Text.join_concat "/" hreverse, directory_eq]

theorem WellNamed.isLabel_home (h : k.WellNamed) : ∀ label ∈ k.home, IsLabel label := by
  unfold home
  split
  · exact h.labels
  · exact List.forall_mem_cons.mpr ⟨h.name, h.labels⟩

theorem home_ne_nil (k : Kind) : k.home ≠ [] := by
  unfold home
  split
  · exact k.labels_ne_nil
  · exact List.cons_ne_nil _ _

theorem group_eq_iff : x.group = y.group ↔ x.labels = y.labels := by
  constructor
  · intro h
    rw [labels, labels, h]
  · intro h
    rw [← join_labels x, ← join_labels y, h]

theorem group_eq_append_iff (hx : x.WellNamed) :
    x.group = x.name ++ "." ++ y.group ↔ x.labels = x.name :: y.labels := by
  have hjoin : Text.join "." (x.name :: y.labels) = x.name ++ "." ++ y.group := by
    obtain ⟨first, rest, hlabels⟩ := List.exists_cons_of_ne_nil y.labels_ne_nil
    rw [← join_labels y, hlabels]
    rfl
  constructor
  · intro h
    have hdot : ∀ c ∈ x.name.toList, decide (c = '.') = false := by
      intro c hc
      rw [decide_eq_false_iff_not]
      rintro rfl
      exact hx.name.notMem (by decide) (by decide) hc
    have htext : x.group.toList = x.name.toList ++ '.' :: y.group.toList := by
      rw [h]
      simp
    rw [labels, Text.split, htext, Text.splitList_append_mark (by decide),
      Text.splitList_of_noMark hdot, List.singleton_append, List.map_cons, String.ofList_toList]
    rfl
  · intro h
    rw [← hjoin, ← h, join_labels]

theorem home_eq_iff (hx : x.WellNamed) (hy : y.WellNamed) (hversion : x.version = y.version) :
    x.home = y.home ↔ x = y ∨ x.Inside y ∨ y.Inside x := by
  have hself : x = y ↔ x.name = y.name ∧ x.labels = y.labels := by
    rw [← group_eq_iff]
    cases x
    cases y
    simp only [mk.injEq] at hversion ⊢
    tauto
  have hinside : x.Inside y ↔ x.name = y.name ∧ x.labels = x.name :: y.labels ∧
      y.labels.head? ≠ some y.name := by
    rw [Inside, group_eq_append_iff hx]
    exact and_iff_right hversion
  have hinside' : y.Inside x ↔ y.name = x.name ∧ y.labels = y.name :: x.labels ∧
      x.labels.head? ≠ some x.name := by
    rw [Inside, group_eq_append_iff hy]
    exact and_iff_right hversion.symm
  rw [hself, hinside, hinside']
  -- the name stands in front of both homes, as a label of the group or added to it
  unfold home
  split <;> split <;> grind

theorem relocated?_eq_iff (hx : x.WellNamed) (hy : y.WellNamed) :
    relocated? x.module x.name = relocated? y.module y.name ↔ x = y ∨ x.Inside y ∨ y.Inside x := by
  rw [hx.relocated?_module, hy.relocated?_module, Option.some.injEq,
    modulePath_inj x.home_ne_nil hx.isLabel_home hx.version y.home_ne_nil hy.isLabel_home hy.version]
  constructor
  · rintro ⟨hversion, hhome⟩
    exact (home_eq_iff hx hy hversion).mp hhome
  · intro h
    have hversion : x.version = y.version := by
      rcases h with rfl | h | h
      · rfl
      · exact h.1
      · exact h.1.symm
    exact ⟨hversion, (home_eq_iff hx hy hversion).mpr h⟩

end Kind

end ResourceModels.Python
