import ResourceModels.JsonSchema
import ResourceModels.Proofs.Collect
import ResourceModels.Proofs.FileTree
import ResourceModels.Proofs.Outcome
import ResourceModels.Proofs.Path
import ResourceModels.Proofs.Schema.Nodes

/-!
# Files of JSON Schemas

A component is written to a file in whose name every dot of the component's name is a dash. Names
that differ in nothing else, or in empty segments, share a file, and the last of them is what is
found there. References are made from names in the same way, so they always lead to a file.
-/

namespace ResourceModels.JsonSchema

open FileStore (lookup?)

def dashed (component : String) : String :=
  String.ofList (component.toList.map fun c => if c = '.' then '-' else c)

/-- Where the file of a component is found. -/
def fileKey (component : String) : String :=
  Text.join "/" ("models" :: (Path.segments (fileName component)).filter (· ≠ ""))

theorem dot_not_mem_dashed (component : String) : '.' ∉ (dashed component).toList := by
  rw [dashed, String.toList_ofList]
  intro h
  obtain ⟨c, _, hc⟩ := List.mem_map.mp h
  split at hc
  · cases hc
  · next hne => exact hne hc

theorem segments_filePath (component : String) :
    Path.segments (filePath component) = "models" :: Path.segments (fileName component) := by
  have htext : (filePath component).toList = "models".toList ++ '/' :: (fileName component).toList := by
    rw [filePath, String.toList_append]
    rfl
  rw [Path.segments, Text.split, htext]
  rfl

theorem noDots_of_mem_segments {component segment : String}
    (h : segment ∈ Path.segments (filePath component)) : segment ≠ "." ∧ segment ≠ ".." := by
  rw [segments_filePath] at h
  rcases List.mem_cons.mp h with rfl | h
  · decide
  have htail : ∀ c ∈ ".schema.json".toList, Path.isSeparator c = false := by
    simp [Path.isSeparator]
  obtain ⟨init, last, hdashed, hname⟩ := Path.segments_append (dashed component) htail
  rw [show fileName component = dashed component ++ ".schema.json" from rfl, hname] at h
  -- a segment before the last one holds no dot, and the last one is too long
  rcases List.mem_append.mp h with h | h
  · have hdot : ∀ c ∈ segment.toList, c ≠ '.' := by
      rintro c hc rfl
      refine dot_not_mem_dashed component (Path.mem_of_mem_segments ?_ _ hc)
      rw [hdashed]
      exact List.mem_append_left _ h
    refine ⟨?_, ?_⟩
    · rintro rfl
      exact hdot '.' (by decide) rfl
    · rintro rfl
      exact hdot '.' (by decide) rfl
  · rw [List.mem_singleton.mp h]
    have hlength : 2 < (last ++ ".schema.json").length := by
      have htail : ".schema.json".length = 12 := rfl
      rw [String.length_append]
      omega
    exact (Path.isPlain_of_length hlength).2

theorem normalizeFile_filePath (component : String) :
    Path.normalizeFile (filePath component) = .ok (fileKey component) := by
  rw [Path.normalizeFile_eq_ok, Path.normalize?_of_noDots fun _ => noDots_of_mem_segments,
    segments_filePath]
  exact ⟨rfl, Text.join_ne_empty "/" (by decide) _⟩

/-- The texts of the components by the paths at which they are found, in order. -/
def keyedTexts (all : Dict Schema) : List (String × String) :=
  all.map fun c => (fileKey c.1, fileText c.2)

theorem keyed_filePaths (all : Dict Schema) :
    keyed (all.map fun c => (filePath c.1, fileText c.2)) = keyedTexts all := by
  induction all with
  | nil => rfl
  | cons c rest ih =>
    have hkey : Path.normalizeFile (filePath c.1, fileText c.2).1 = .ok (fileKey c.1) :=
      normalizeFile_filePath c.1
    rw [List.map_cons, keyed_cons hkey, ih]
    rfl

theorem sorted_components (documents : List OpenApi) : Dict.Sorted (components documents) := by
  have hfold : ∀ d : Dict Schema, Dict.Sorted d →
      Dict.Sorted (documents.foldl (fun d doc => Dict.insertAll d doc.schemas) d) := by
    induction documents with
    | nil => exact fun _ h => h
    | cons doc rest ih => exact fun d h => ih _ (h.insertAll doc.schemas)
  exact hfold [] .nil

theorem mem_keys_components {documents : List OpenApi} {name : String} :
    name ∈ (components documents).keys ↔ ∃ doc ∈ documents, name ∈ doc.schemas.keys := by
  have hfold : ∀ d : Dict Schema,
      name ∈ (documents.foldl (fun d doc => Dict.insertAll d doc.schemas) d).keys ↔
        name ∈ d.keys ∨ ∃ doc ∈ documents, name ∈ doc.schemas.keys := by
    induction documents with
    | nil => simp
    | cons doc rest ih =>
      intro d
      rw [List.foldl_cons, ih, Dict.mem_keys_insertAll, List.exists_mem_cons_iff, or_assoc]
      rfl
  rw [components, hfold]
  simp [Dict.keys]

theorem generate_ok {σ : Type} [FileStore σ] {files : σ} {exclude : List String} {t : FileTree}
    (h : generate files exclude = .ok (some t)) :
    ∃ extracts, Collect.documents files exclude = .ok extracts ∧
      FileTree.ofTexts ((components (extracts.map (·.document))).map fun c =>
        (filePath c.1, fileText c.2)) = .ok t := by
  simp only [generate, Outcome.bind_eq_ok, Outcome.mapError_eq_ok] at h
  obtain ⟨extracts, hd, h⟩ := h
  refine ⟨extracts, hd, ?_⟩
  split at h
  · cases h
  · obtain ⟨t', ht', h⟩ := Outcome.bind_eq_ok.mp h
    cases h
    exact Outcome.mapError_eq_ok.mp ht'

theorem keepsParts_settle : Schema.KeepsParts settle := by
  intro s place
  cases place with
  | additional =>
    simp only [Schema.part?, settle, close]
    split
    · next h =>
      have hnone : s.additional = none := by simp_all [isSilent]
      rw [hnone]
      rfl
    · rfl
  | _ =>
    simp only [Schema.part?, settle, close]
    split <;> rfl

theorem keywords_settle (s : Schema) : (settle s).keywords = relink s.keywords := by
  simp only [settle, close]
  split <;> rfl

theorem relink_componentRef {k : Keywords} {target : String}
    (h : k.reference = some (Schema.componentRef target)) :
    (relink k).reference = some (fileName target) := by
  have htarget : Schema.refTarget? (Schema.componentRef target) = some target :=
    Text.after?_eq_some.mpr rfl
  simp [relink, h, htarget]

/-- A reference to a component is a reference to its file in the schema that is written. -/
theorem relinked_at {s node : Schema} {position : List Schema.Place} {target : String}
    (hnode : s.at? position = some node)
    (href : node.keywords.reference = some (Schema.componentRef target)) :
    ∃ written, (Schema.mapNodes settle s).at? position = some written ∧
      written.keywords.reference = some (fileName target) := by
  refine ⟨Schema.mapNodes settle node, ?_, ?_⟩
  · rw [Schema.at?_mapNodes keepsParts_settle, hnode, Option.map_some]
  · rw [Schema.mapNodes_eq, keywords_settle]
    exact relink_componentRef href

/-- No two components share a file. -/
def FilesApart (all : Dict Schema) : Prop :=
  ∀ a ∈ all.keys, ∀ b ∈ all.keys, fileKey a = fileKey b → a = b

/-- Wherever a schema refers to a component, the schema that is written refers to a file beside it
that holds that component. -/
def Linked (all : Dict Schema) (t : FileTree) : Prop :=
  ∀ c ∈ all, ∀ position node target s, c.2.at? position = some node →
    node.keywords.reference = some (Schema.componentRef target) → all.get? target = some s →
      ∃ written, (Schema.mapNodes settle c.2).at? position = some written ∧
        written.keywords.reference = some (fileName target) ∧
          FileStore.read t ("models/" ++ fileName target) = .ok (Text.encode (fileText s))

/-- Nothing but the definitions can keep schemas from being written. -/
theorem exists_generate {σ : Type} [FileStore σ] {files : σ} {exclude : List String}
    {extracts : List Extract} (h : Collect.documents files exclude = .ok extracts)
    (hne : extracts ≠ []) : ∃ t, generate files exclude = .ok (some t) := by
  have hpaths : ∀ file ∈ (components (extracts.map (·.document))).map
      fun c => (filePath c.1, fileText c.2), ∃ key, Path.normalizeFile file.1 = .ok key := by
    intro file hfile
    obtain ⟨c, _, rfl⟩ := List.mem_map.mp hfile
    exact ⟨_, normalizeFile_filePath c.1⟩
  obtain ⟨t, ht⟩ := FileTree.exists_writeTexts hpaths .empty
  refine ⟨t, ?_⟩
  simp only [generate, Outcome.bind_eq_ok, Outcome.mapError_eq_ok]
  refine ⟨extracts, h, ?_⟩
  rw [if_neg (by simpa using hne), Outcome.bind_eq_ok]
  exact ⟨t, Outcome.mapError_eq_ok.mpr ht, rfl⟩

section

variable {all : Dict Schema} {t : FileTree}

theorem lookup?_ofTexts
    (h : FileTree.ofTexts (all.map fun c => (filePath c.1, fileText c.2)) = .ok t) (path : String) :
    lookup? t path = ((Dict.ofList (keyedTexts all)).get? path).map FileTree.textEntry := by
  have hwritten := FileTree.lookup?_writeTexts (t := FileTree.empty) h path
  rw [placed, keyed_filePaths] at hwritten
  rw [hwritten]
  exact Option.or_none

theorem filesApart_iff_nodup (hs : Dict.Sorted all) :
    FilesApart all ↔ ((keyedTexts all).map (·.1)).Nodup := by
  have hkeys : (keyedTexts all).map (·.1) = all.keys.map fileKey := by
    simp [keyedTexts, Dict.keys]
  rw [hkeys, List.nodup_map_iff_inj_on hs.keys_nodup]
  rfl

theorem size_ofTexts
    (h : FileTree.ofTexts (all.map fun c => (filePath c.1, fileText c.2)) = .ok t) :
    FileStore.size t = (Dict.ofList (keyedTexts all)).keys.length := by
  have hpaths : FileStore.paths t = (Dict.ofList (keyedTexts all)).keys := by
    refine Dict.keys_eq_of_mem (FileTree.paths_pairwise t) (Dict.sorted_ofList _).keys_pairwise ?_
    intro path
    rw [FileTree.mem_paths, lookup?_ofTexts h, Option.isSome_map, Dict.isSome_get?_iff]
  rw [FileStore.Lawful.size_eq, hpaths]

theorem size_eq_iff (hs : Dict.Sorted all)
    (h : FileTree.ofTexts (all.map fun c => (filePath c.1, fileText c.2)) = .ok t) :
    FileStore.size t = all.length ↔ FilesApart all := by
  have hlength : all.length = (keyedTexts all).length := by simp [keyedTexts]
  rw [size_ofTexts h, hlength, Dict.length_keys_ofList_iff, filesApart_iff_nodup hs]

theorem read_filePath (hs : Dict.Sorted all)
    (h : FileTree.ofTexts (all.map fun c => (filePath c.1, fileText c.2)) = .ok t)
    (hapart : FilesApart all) {target : String} {s : Schema} (hget : all.get? target = some s) :
    FileStore.read t (filePath target) = .ok (Text.encode (fileText s)) := by
  have hmem : (fileKey target, fileText s) ∈ keyedTexts all :=
    List.mem_map.mpr ⟨(target, s), Dict.mem_of_get? hget, rfl⟩
  have hlookup : lookup? t (fileKey target) = some (FileTree.textEntry (fileText s)) := by
    rw [lookup?_ofTexts h, Dict.get?_ofList_of_mem ((filesApart_iff_nodup hs).mp hapart) hmem,
      Option.map_some]
  simp only [FileStore.read, normalizeFile_filePath, hlookup, bind, Except.bind, pure, Except.pure]
  rfl

theorem linked_of_filesApart (hs : Dict.Sorted all)
    (h : FileTree.ofTexts (all.map fun c => (filePath c.1, fileText c.2)) = .ok t)
    (hapart : FilesApart all) : Linked all t := by
  intro c _ position node target s hnode href hget
  obtain ⟨written, hwritten, hlink⟩ := relinked_at hnode href
  exact ⟨written, hwritten, hlink, read_filePath hs h hapart hget⟩

end

theorem generate_filesApart_iff {σ : Type} [FileStore σ] {files : σ} {exclude : List String}
    {t : FileTree} (h : generate files exclude = .ok (some t)) :
    ∃ extracts, Collect.documents files exclude = .ok extracts ∧
      let all := components (extracts.map (·.document))
      (∀ path, lookup? t path =
        ((Dict.ofList (keyedTexts all)).get? path).map FileTree.textEntry) ∧
      (FileStore.size t = all.length ∧ Linked all t ↔ FilesApart all) := by
  obtain ⟨extracts, hd, ht⟩ := generate_ok h
  have hs := sorted_components (extracts.map (·.document))
  refine ⟨extracts, hd, lookup?_ofTexts ht, ?_⟩
  constructor
  · rintro ⟨hsize, _⟩
    exact (size_eq_iff hs ht).mp hsize
  · intro hapart
    exact ⟨(size_eq_iff hs ht).mpr hapart, linked_of_filesApart hs ht hapart⟩

/-- Two groups that differ by a dot and a dash define one kind. -/
def dottedAndDashed : FileTree :=
  .ofEntries
    [("dotted.yaml", Collect.definitionFile "a.b" "K" "\x7b\x7d"),
      ("dashed.yaml", Collect.definitionFile "a-b" "K" "\x7b\x7d")]

def haveKinds (names : List String) : Except DefinitionError (List Extract) → Bool
  | .ok extracts => names.all fun name => name ∈ extracts.map (·.kindComponent)
  | .error _ => false

theorem exists_of_haveKinds {names : List String}
    {result : Except DefinitionError (List Extract)} (h : haveKinds names result = true) :
    ∃ extracts, result = .ok extracts ∧ ∀ name ∈ names, name ∈ extracts.map (·.kindComponent) := by
  cases result with
  | error fault => cases h
  | ok extracts =>
    exact ⟨extracts, rfl, fun name hname => of_decide_eq_true (List.all_eq_true.mp h name hname)⟩

theorem holdTexts_dottedAndDashed :
    Collect.HoldTexts dottedAndDashed []
      [("dashed.yaml", Collect.definitionText "a-b" "K" "\x7b\x7d"),
        ("dotted.yaml", Collect.definitionText "a.b" "K" "\x7b\x7d")] :=
  Collect.holdTexts_ofEntries (.swap ..) (by decide) (by decide) (by decide)

theorem dottedAndDashed_evaluated :
    haveKinds ["a.b.v.K", "a-b.v.K"] (Collect.documents dottedAndDashed []) = true := by
  rw [holdTexts_dottedAndDashed.documents_eq]
  simp only [Collect.charsOf, List.map_cons, List.map_nil, Collect.toList_definitionText,
    String.reduceToList]
  decide +kernel

theorem exists_generate_dottedAndDashed :
    ∃ t extracts, generate dottedAndDashed [] = .ok (some t) ∧
      Collect.documents dottedAndDashed [] = .ok extracts ∧
        ∀ name ∈ ["a.b.v.K", "a-b.v.K"], name ∈ (components (extracts.map (·.document))).keys := by
  obtain ⟨extracts, hd, hnames⟩ := exists_of_haveKinds dottedAndDashed_evaluated
  have hne : extracts ≠ [] := by
    rintro rfl
    cases hnames "a.b.v.K" List.mem_cons_self
  obtain ⟨t, ht⟩ := exists_generate hd hne
  refine ⟨t, extracts, ht, hd, fun name hname => ?_⟩
  obtain ⟨e, he, rfl⟩ := List.mem_map.mp (hnames name hname)
  exact mem_keys_components.mpr
    ⟨e.document, List.mem_map_of_mem he, Collect.kindComponent_mem hd he⟩

theorem dottedAndDashed_filesApart_iff :
    ∃ t extracts, generate dottedAndDashed [] = .ok (some t) ∧
      Collect.documents dottedAndDashed [] = .ok extracts ∧
        let all := components (extracts.map (·.document))
        (FileStore.size t = all.length ∧ Linked all t ↔ FilesApart all) := by
  obtain ⟨t, _, ht, _⟩ := exists_generate_dottedAndDashed
  obtain ⟨extracts, hd, _, hiff⟩ := generate_filesApart_iff ht
  exact ⟨t, extracts, ht, hd, hiff⟩

/-- There are fewer files than components. -/
theorem dottedAndDashed_share_file :
    ∃ t extracts, generate dottedAndDashed [] = .ok (some t) ∧
      Collect.documents dottedAndDashed [] = .ok extracts ∧
        FileStore.size t ≠ (components (extracts.map (·.document))).length := by
  obtain ⟨t, extracts, ht, hd, hnames⟩ := exists_generate_dottedAndDashed
  refine ⟨t, extracts, ht, hd, fun hsize => ?_⟩
  obtain ⟨extracts', hd', htexts⟩ := generate_ok ht
  obtain rfl : extracts' = extracts := Except.ok.inj (hd'.symm.trans hd)
  have hapart := (size_eq_iff (sorted_components _) htexts).mp hsize
  have hkey : fileKey "a.b.v.K" = fileKey "a-b.v.K" := by decide +kernel
  have hsame := hapart "a.b.v.K" (hnames _ (by simp)) "a-b.v.K" (hnames _ (by simp)) hkey
  exact absurd hsame (by decide)

end ResourceModels.JsonSchema
