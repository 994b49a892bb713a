import ResourceModels.Proofs.Collect.Distribution
import ResourceModels.Proofs.Go.SharedPackage

/-!
# Go files of the same definitions

The shared file is made of the first components with each name, and a kind's path holds the last
document that is written there. Kinds in labelled groups and versions go to different paths if their
names hold no separators, so neither depends on the order of the manifests.
-/

namespace ResourceModels.Go

open FileStore (lookup?)
open Python (IsLabel Kind)

/-- The path of the file of a kind. -/
def kindPath (k : Kind) : String :=
  let labels := k.labels.filter (· ≠ "")
  "models/" ++ Text.join "/" labels.reverse ++ "/" ++ k.version ++ "/" ++ k.name ++ ".go"

section

variable {k k' : Kind}

theorem segments_kindPath (h : k.Placed) :
    Path.segments (kindPath k) = "models" :: k.labels.reverse ++ [k.version, k.name ++ ".go"] := by
  have hfilter : k.labels.filter (· ≠ "") = k.labels :=
    List.filter_eq_self.mpr fun label hlabel => decide_eq_true (h.labels label hlabel).1
  have hreverse : k.labels.reverse ≠ [] := List.reverse_eq_nil_iff.not.mpr k.labels_ne_nil
  have hjoin : kindPath k = "models" ++ "/" ++ Text.join "/" k.labels.reverse ++ "/" ++ k.version ++
      "/" ++ (k.name ++ ".go") := by
    simp only [kindPath, hfilter, String.append_assoc]
    rfl
  have hfile : ∀ c ∈ (k.name ++ ".go").toList, Path.isSeparator c = false :=
    Path.noSeparator_append h.noSeparator (by simp [Path.isSeparator])
  have hlabels : ∀ label ∈ k.labels.reverse, ∀ c ∈ label.toList, Path.isSeparator c = false :=
    fun label hlabel => (h.labels label (List.mem_reverse.mp hlabel)).noSeparator
  rw [hjoin, Path.segments_append_slash, Path.segments_append_slash, Path.segments_append_slash,
    Path.segments_join hreverse hlabels, Path.segments_of_noSeparator h.version.noSeparator,
    Path.segments_of_noSeparator hfile, Path.segments_of_noSeparator (by simp [Path.isSeparator])]
  simp

theorem isPlain_of_mem_kindPath (h : k.Placed) :
    ∀ s ∈ Path.segments (kindPath k), Path.IsPlain s := by
  rw [segments_kindPath h]
  intro s hs
  simp only [List.cons_append, List.mem_cons, List.mem_append, List.mem_reverse, List.not_mem_nil,
    or_false] at hs
  rcases hs with rfl | hs | rfl | rfl
  · exact Path.isPlain_of_length (by decide)
  · exact (h.labels s hs).isPlain
  · exact h.version.isPlain
  · refine Path.isPlain_of_length ?_
    have hending : ".go".length = 3 := by decide
    rw [String.length_append, hending]
    omega

/-- Different kinds go to different paths. -/
theorem eq_of_kindPath (h : k.Placed) (h' : k'.Placed) {path : String}
    (hpath : Path.normalizeFile (kindPath k) = .ok path)
    (hpath' : Path.normalizeFile (kindPath k') = .ok path) : k = k' := by
  have hsegments := Path.segments_eq_of_normalizeFile (isPlain_of_mem_kindPath h)
    (isPlain_of_mem_kindPath h') hpath hpath'
  rw [segments_kindPath h, segments_kindPath h'] at hsegments
  obtain ⟨hgroup, hfile⟩ := List.append_inj' hsegments rfl
  rw [List.cons.injEq, List.reverse_inj] at hgroup
  simp only [List.cons.injEq, String.append_left_inj, and_true] at hfile
  exact Kind.ext (Kind.group_eq_iff.mpr hgroup.2) hfile.1 hfile.2

end

section

variable {ms ms' : List Manifest} {l l' : List Extract}

theorem chooses_shared (name : String) :
    Chooses fun l : List Extract => (sharedDocument (l.map (·.document))).schemas.get? name where
  nil := rfl
  append := by
    refine .inl fun a b => ?_
    simp only [sharedDocument, Dict.get?_insertMissing, List.map_append, List.flatMap_append,
      List.filter_append, Dict.get?_append, Dict.get?, Option.none_or]

theorem exists_of_get?_sharedDocument {name : String} {s : Schema}
    (h : (sharedDocument (l.map (·.document))).schemas.get? name = some s) :
    ∃ e ∈ l, (name, s) ∈ e.document.schemas := by
  obtain ⟨doc, hdoc, hmem, _⟩ := mem_sharedDocument (Dict.mem_of_get? h)
  obtain ⟨e, he, rfl⟩ := List.mem_map.mp hdoc
  exact ⟨e, he, hmem⟩

theorem sharedDocument_eq_of_same (hsame : SameDefinitions ms ms') (hapart : DefinitionsApart ms)
    (hl : gather Manifest.extracts ms = some l) (hl' : gather Manifest.extracts ms' = some l') :
    sharedDocument (l.map (·.document)) = sharedDocument (l'.map (·.document)) := by
  have hschemas : (sharedDocument (l.map (·.document))).schemas =
      (sharedDocument (l'.map (·.document))).schemas := by
    refine (sorted_sharedDocument _).ext (sorted_sharedDocument _) fun name => ?_
    refine (chooses_shared name).gather_eq hl hl' (fun m hm => hsame.mem_iff hm) ?_
    exact agree_of_component hapart fun _ _ hs => exists_of_get?_sharedDocument hs
  exact congrArg (fun schemas => { sharedDocument [] with schemas }) hschemas

theorem chooses_kindAt (path : String) : Chooses fun l : List Extract => kindAt? l path where
  nil := rfl
  append := .inr fun a b => by rw [kindAt?, List.map_append, get?_placed_append]; rfl

theorem kindAt?_eq_of_same (hsame : SameDefinitions ms ms') (hapart : DefinitionsApart ms)
    (hplaced : ∀ m ∈ ms, ∀ k ∈ m.kinds, k.Placed) (hl : gather Manifest.extracts ms = some l)
    (hl' : gather Manifest.extracts ms' = some l') (path : String) :
    kindAt? l path = kindAt? l' path := by
  refine (chooses_kindAt path).gather_eq hl hl' (fun m hm => hsame.mem_iff hm) ?_
  refine agree_of_kind hapart
    (P := fun e => Path.normalizeFile (kindPath e.toKind) = .ok path) ?_ ?_
  · intro own found hfound
    obtain ⟨file, hfile, hpath, _⟩ := exists_of_get?_placed hfound
    obtain ⟨e, he, rfl⟩ := List.mem_map.mp hfile
    exact ⟨e, he, hpath⟩
  · intro m hm m' hm' e e' hkind hkind' hpath hpath'
    exact eq_of_kindPath (hplaced m hm _ hkind) (hplaced m' hm' _ hkind') hpath hpath'

theorem fileAt?_eq_of_same (hsame : SameDefinitions ms ms') (hapart : DefinitionsApart ms)
    (hplaced : ∀ m ∈ ms, ∀ k ∈ m.kinds, k.Placed) (hl : gather Manifest.extracts ms = some l)
    (hl' : gather Manifest.extracts ms' = some l') (path : String) :
    fileAt? l path = fileAt? l' path := by
  rw [fileAt?, fileAt?, preparedAt_eq, preparedAt_eq,
    kindAt?_eq_of_same hsame hapart hplaced hl hl', sharedDocument_eq_of_same hsame hapart hl hl']

theorem sources_subset_of_same (hsame : SameDefinitions ms ms') (hapart : DefinitionsApart ms)
    (hl : gather Manifest.extracts ms = some l) (hl' : gather Manifest.extracts ms' = some l') :
    sources l' ⊆ sources l := by
  intro s hs
  rcases List.mem_cons.mp hs with rfl | hs
  · rw [sharedSource, ← sharedDocument_eq_of_same hsame hapart hl hl']
    exact List.mem_cons_self
  · obtain ⟨e, he, rfl⟩ := List.mem_map.mp hs
    exact List.mem_cons_of_mem _ (List.mem_map_of_mem ((hsame.mem_extracts_iff hl hl').mpr he))

theorem sources_anonymous (extracts : List Extract) :
    sources (extracts.map Extract.anonymous) = sources extracts := by
  simp only [sources, List.map_map]
  rfl

theorem fileAt?_anonymous (extracts : List Extract) (path : String) :
    fileAt? (extracts.map Extract.anonymous) path = fileAt? extracts path := by
  simp only [fileAt?, preparedAt, prepared, List.map_map]
  rfl

variable {σ τ : Type} [FileStore σ] [FileStore τ] {files : σ} {others : τ}
  {exclude exclude' : List String}

/-- The Go models for some files are those for other files with the same definitions. -/
theorem generate_of_same (hm : Collect.manifests files exclude = some ms)
    (hm' : Collect.manifests others exclude' = some ms') (hsame : SameDefinitions ms ms')
    (hapart : DefinitionsApart ms) (hplaced : ∀ m ∈ ms, ∀ k ∈ m.kinds, k.Placed)
    {r : Option FileTree} (h : generate files exclude = .ok r) : generate others exclude' = .ok r := by
  simp only [generate, Outcome.bind_eq_ok, Outcome.mapError_eq_ok] at h ⊢
  obtain ⟨extracts, hd, h⟩ := h
  obtain ⟨extracts', hd', hl, hl'⟩ := Collect.exists_documents hm hm' hsame hd
  refine ⟨extracts', hd', ?_⟩
  have hempty := hsame.isEmpty_eq hl hl'
  rw [List.isEmpty_map, List.isEmpty_map] at hempty
  rw [← hempty]
  split
  · next hnone =>
    rw [if_pos hnone] at h
    exact h
  next hsome =>
  rw [if_neg hsome] at h
  simp only [Outcome.bind_eq_ok, Outcome.mapError_eq_ok] at h ⊢
  obtain ⟨t₀, h₀, t, ht, hr⟩ := h
  have hwritable := writable_of_writeSources ht
  have hsub := sources_subset_of_same hsame hapart hl hl'
  rw [sources_anonymous, sources_anonymous] at hsub
  obtain ⟨t', ht'⟩ := exists_writeSources (fun s hs => hwritable s (hsub hs)) t₀
  have hsametree : t = t' := by
    refine FileTree.ext_lookup? fun path => ?_
    have hfile := fileAt?_eq_of_same hsame hapart hplaced hl hl' path
    rw [fileAt?_anonymous, fileAt?_anonymous] at hfile
    rw [lookup?_writeSources ht, lookup?_writeSources ht', hfile]
  exact ⟨t₀, h₀, t', ht', hsametree ▸ hr⟩

end

end ResourceModels.Go
