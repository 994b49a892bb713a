import ResourceModels.Proofs.Collect
import ResourceModels.Proofs.Collect.Distribution
import ResourceModels.Proofs.Go.Distribution
import ResourceModels.Proofs.JsonSchema.Files
import ResourceModels.Proofs.Python.Distribution

/-!
# Where definitions live

Definitions can be moved to other files, joined in one file or split among several. Nothing that is
generated depends on it where manifests differ in their kinds and components, unless the name of a
kind is more than a segment of a path or holds the mark that the names of staged documents are
joined by.
-/

/-!
## JSON Schemas of the same definitions

The last of the components with one name is written. Where a name beyond the shared vocabulary is
defined by one manifest only, that is the same component in whatever order the manifests come.
-/

namespace ResourceModels.JsonSchema

theorem components_eq (documents : List OpenApi) :
    components documents = Dict.ofList (documents.flatMap (·.schemas)) := by
  rw [components, Dict.ofList, List.foldl_flatMap]
  rfl

theorem chooses_component (name : String) :
    Chooses fun l : List Extract => (components (l.map (·.document))).get? name where
  nil := rfl
  append := by
    refine .inr fun a b => ?_
    simp only [components_eq, List.map_append, List.flatMap_append, Dict.get?_ofList_append]

theorem exists_of_get?_components {l : List Extract} {name : String} {s : Schema}
    (h : (components (l.map (·.document))).get? name = some s) :
    ∃ e ∈ l, (name, s) ∈ e.document.schemas := by
  rw [components_eq] at h
  obtain ⟨doc, hdoc, hmem⟩ := List.mem_flatMap.mp (Dict.mem_of_mem_ofList (Dict.mem_of_get? h))
  obtain ⟨e, he, rfl⟩ := List.mem_map.mp hdoc
  exact ⟨e, he, hmem⟩

theorem components_eq_of_same {ms ms' : List Manifest} {l l' : List Extract}
    (hsame : SameDefinitions ms ms') (hapart : DefinitionsApart ms)
    (hl : gather Manifest.extracts ms = some l) (hl' : gather Manifest.extracts ms' = some l') :
    components (l.map (·.document)) = components (l'.map (·.document)) := by
  refine (sorted_components _).ext (sorted_components _) fun name => ?_
  refine (chooses_component name).gather_eq hl hl' (fun m hm => hsame.mem_iff hm) ?_
  exact agree_of_component hapart fun _ _ hs => exists_of_get?_components hs

variable {σ τ : Type} [FileStore σ] [FileStore τ] {files : σ} {others : τ}
  {exclude exclude' : List String} {ms ms' : List Manifest}

/-- The JSON Schemas for some files are those for other files with the same definitions. -/
theorem generate_of_same (hm : Collect.manifests files exclude = some ms)
    (hm' : Collect.manifests others exclude' = some ms') (hsame : SameDefinitions ms ms')
    (hapart : DefinitionsApart ms) {r : Option FileTree} (h : generate files exclude = .ok r) :
    generate others exclude' = .ok r := by
  simp only [generate, Outcome.bind_eq_ok, Outcome.mapError_eq_ok] at h ⊢
  obtain ⟨extracts, hd, h⟩ := h
  obtain ⟨extracts', hd', hl, hl'⟩ := Collect.exists_documents hm hm' hsame hd
  refine ⟨extracts', hd', ?_⟩
  have hcomponents := components_eq_of_same hsame hapart hl hl'
  have hempty := hsame.isEmpty_eq hl hl'
  rw [List.map_map, List.map_map] at hcomponents
  rw [List.isEmpty_map, List.isEmpty_map] at hempty
  rw [← hempty]
  exact hcomponents ▸ h

end ResourceModels.JsonSchema

/-! ## Every language -/

namespace ResourceModels

open FileStore (lookup?)

section

variable {σ τ : Type} [FileStore σ] [FileStore τ] {files : σ} {others : τ}
  {exclude exclude' : List String} {ms ms' : List Manifest}

/-- What is generated for some files is generated for other files with the same definitions. -/
theorem SameDefinitions.outputs_eq (hm : Collect.manifests files exclude = some ms)
    (hm' : Collect.manifests others exclude' = some ms') (hsame : SameDefinitions ms ms')
    (hapart : DefinitionsApart ms) :
    (∀ r, JsonSchema.generate files exclude = .ok r → JsonSchema.generate others exclude' = .ok r) ∧
    ((∀ m ∈ ms, ∀ k ∈ m.kinds, k.Placed) →
      ∀ r, Go.generate files exclude = .ok r → Go.generate others exclude' = .ok r) ∧
    ((∀ m ∈ ms, ∀ k ∈ m.kinds, k.Named) →
      ∀ t, Python.stage files exclude = .ok t → Python.stage others exclude' = .ok t) :=
  ⟨fun _ h => JsonSchema.generate_of_same hm hm' hsame hapart h,
    fun hplaced _ h => Go.generate_of_same hm hm' hsame hapart hplaced h,
    fun hnamed _ h => Python.stage_of_same hm hm' hsame hapart hnamed h⟩

end

theorem Manifest.toOption_ofChars (path : String) (chars : List Char) :
    (ofChars path chars).toOption = (ofChars "" chars).toOption := by
  unfold ofChars
  split <;> rfl

/-- Two texts hold one manifest each, and something is so about the two. -/
def pairHolds (P : Manifest → Manifest → Bool) (first second : List Char) : Bool :=
  match (Manifest.ofChars "" first).toOption, (Manifest.ofChars "" second).toOption with
  | some [m], some [m'] => P m m'
  | _, _ => false

theorem exists_of_pairHolds {P : Manifest → Manifest → Bool} {first second : List Char}
    (h : pairHolds P first second = true) :
    ∃ m m', (Manifest.ofChars "" first).toOption = some [m] ∧
      (Manifest.ofChars "" second).toOption = some [m'] ∧ P m m' = true := by
  unfold pairHolds at h
  split at h
  · next m m' hm hm' => exact ⟨m, m', hm, hm', h⟩
  · cases h

section

variable {first second : String} {m m' : Manifest}

theorem manifestsOf_text {σ : Type} [FileStore σ] {files : σ} {exclude : List String}
    {texts : List (String × String)} (h : Collect.HoldTexts files exclude texts)
    {text : String × String} (ht : text ∈ texts) :
    Collect.manifestsOf files text.1 = (Manifest.ofChars "" text.2.toList).toOption := by
  rw [Collect.manifestsOf, h.read text ht, ← Manifest.toOption_ofChars text.1]
  exact congrArg Except.toOption (Manifest.classify_encode text.1 text.2)

theorem manifests_pair {σ : Type} [FileStore σ] {files : σ} {exclude : List String} {a b : String}
    (h : Collect.HoldTexts files exclude [(a, first), (b, second)])
    (hm : (Manifest.ofChars "" first.toList).toOption = some [m])
    (hm' : (Manifest.ofChars "" second.toList).toOption = some [m']) :
    Collect.manifests files exclude = some [m, m'] := by
  have hfirst := manifestsOf_text h List.mem_cons_self
  have hsecond := manifestsOf_text h (List.mem_cons_of_mem _ List.mem_cons_self)
  rw [Collect.manifests, h.sources]
  simp only [List.map_cons, List.map_nil, gather, hfirst, hsecond, hm, hm']
  rfl

theorem sameDefinitions_pair (m m' : Manifest) : SameDefinitions [m, m'] [m', m] :=
  (List.Perm.swap m' m []).filter _

theorem definitionsApart_pair (h : m.Apart m') : DefinitionsApart [m, m'] := by
  intro x hx y hy hne
  simp only [List.mem_cons, List.not_mem_nil, or_false] at hx hy
  rcases hx with rfl | rfl <;> rcases hy with rfl | rfl
  · exact absurd rfl hne
  · exact h
  · exact h.symm
  · exact absurd rfl hne

/-- What two manifests define has different names. -/
def namesApart (m m' : Manifest) : Bool :=
  match m.resources, m'.resources with
  | some resources, some others =>
    m.kinds.all (· ∉ m'.kinds) && (resources.flatMap (·.componentNames)).all
      (· ∉ others.flatMap (·.componentNames))
  | _, _ => false

theorem apart_of_namesApart (h : namesApart m m' = true) : m.Apart m' := by
  unfold namesApart at h
  split at h
  · next resources others hm hm' =>
    simp only [Bool.and_eq_true, List.all_eq_true, decide_eq_true_eq] at h
    refine ⟨fun k hk => h.1 k hk, fun name hname hname' => ?_⟩
    exact h.2 name (Manifest.components_subset hm hname) (Manifest.components_subset hm' hname')
  · cases h

end

/-- Two files with the given texts. -/
def twoFiles (first second : String) : FileTree :=
  .ofEntries [("a.yaml", .file (Text.encode first)), ("b.yaml", .file (Text.encode second))]

theorem holdTexts_twoFiles (first second : String) :
    Collect.HoldTexts (twoFiles first second) [] [("a.yaml", first), ("b.yaml", second)] := by
  have hsecond : ¬"b.yaml" < "a.yaml" := by decide
  have hpaths : FileStore.paths (twoFiles first second) = ["a.yaml", "b.yaml"] := by
    change Dict.keys (Dict.ofList _) = _
    simp [Dict.ofList, Dict.insert, Dict.keys, hsecond]
  refine Collect.holdTexts_ofEntries (.refl _) ?_ ?_ ?_
  · simp only [List.forall_mem_cons]
    exact ⟨by decide, by decide, by simp⟩
  · simp
  · rw [Collect.sources, ← twoFiles, hpaths]
    rfl

/-- The texts of `Go.nestedAndKind`. -/
def nestedText : String :=
  Collect.definitionText "a" "A"
    "\x7bproperties: \x7bb: \x7bproperties: \x7bc: \x7b\x7d\x7d\x7d\x7d\x7d"

def kindText : String := Collect.definitionText "a" "AB" "\x7b\x7d"

theorem nested_evaluated :
    pairHolds (fun m m' => namesApart m m' && decide ((∀ k ∈ m.kinds, k.Named) ∧
      ∀ k ∈ m'.kinds, k.Named)) nestedText.toList kindText.toList = true := by
  simp only [nestedText, kindText, Collect.toList_definitionText, String.reduceToList]
  decide +kernel

/-- All that is generated for two files, and the same when the files have each other's names. -/
theorem outputs_eq_nested :
    ∃ ms ms', Collect.manifests Go.nestedAndKind [] = some ms ∧
      Collect.manifests (twoFiles kindText nestedText) [] = some ms' ∧
      SameDefinitions ms ms' ∧ DefinitionsApart ms ∧ (∀ m ∈ ms, ∀ k ∈ m.kinds, k.Named) ∧
      (∃ t, JsonSchema.generate Go.nestedAndKind [] = .ok (some t) ∧
        JsonSchema.generate (twoFiles kindText nestedText) [] = .ok (some t)) ∧
      (∃ t, Go.generate Go.nestedAndKind [] = .ok (some t) ∧
        Go.generate (twoFiles kindText nestedText) [] = .ok (some t)) ∧
      ∃ t, Python.stage Go.nestedAndKind [] = .ok t ∧
        Python.stage (twoFiles kindText nestedText) [] = .ok t := by
  obtain ⟨m, m', hm, hm', h⟩ := exists_of_pairHolds nested_evaluated
  obtain ⟨hnames, hkinds⟩ := Bool.and_eq_true_iff.mp h
  have hall : ∀ x ∈ [m, m'], ∀ k ∈ x.kinds, k.Named := by simpa using of_decide_eq_true hkinds
  have hfirst := manifests_pair Go.holdTexts_nestedAndKind hm hm'
  have hsecond := manifests_pair (holdTexts_twoFiles kindText nestedText) hm' hm
  have hapart := definitionsApart_pair (apart_of_namesApart hnames)
  obtain ⟨extracts, hd, hne, hwritable, _⟩ := Go.haveType_iff.mp Go.nestedAndKind_evaluated
  obtain ⟨schemas, hschemas⟩ := JsonSchema.exists_generate hd hne
  obtain ⟨models, hmodels⟩ := Go.exists_generate hd hne hwritable
  obtain ⟨staged, hstaged⟩ := Python.exists_stage hfirst hall hd
  obtain ⟨hjson, hgo, hpython⟩ :=
    SameDefinitions.outputs_eq hfirst hsecond (sameDefinitions_pair m m') hapart
  have hplaced : ∀ x ∈ [m, m'], ∀ k ∈ x.kinds, k.Placed := fun x hx k hk =>
    (hall x hx k hk).toPlaced
  exact ⟨_, _, hfirst, hsecond, sameDefinitions_pair m m', hapart, hall,
    ⟨schemas, hschemas, hjson _ hschemas⟩, ⟨models, hmodels, hgo hplaced _ hmodels⟩,
    staged, hstaged, hpython hall _ hstaged⟩

namespace OpenApi

/-- The lines of a document before its paths. -/
def heading (doc : OpenApi) : String :=
  Yaml.Writing.fields 0 true [("openapi", .str doc.version),
    ("info", .obj [("title", .str doc.title), ("version", .str doc.revision)])]

theorem toYaml_eq (doc : OpenApi) : ∃ rest, doc.toYaml = doc.heading ++ rest := by
  refine ⟨Yaml.Writing.fields 0 false [("paths", .obj doc.paths),
    ("components", .obj [("schemas", .obj (schemasJson doc.schemas))])], ?_⟩
  simp [toYaml, toJson, Yaml.write, Yaml.Writing.value, heading, Yaml.Writing.fields,
    Yaml.Writing.Place.opening, Yaml.Writing.Place.column, String.append_assoc]

theorem toYaml_ne {doc doc' : OpenApi} (hlength : doc.heading.length = doc'.heading.length)
    (hne : doc.heading ≠ doc'.heading) : doc.toYaml ≠ doc'.toYaml := by
  intro heq
  obtain ⟨rest, hrest⟩ := doc.toYaml_eq
  obtain ⟨rest', hrest'⟩ := doc'.toYaml_eq
  rw [hrest, hrest'] at heq
  have hlist := congrArg String.toList heq
  rw [String.toList_append, String.toList_append] at hlist
  exact hne (String.toList_inj.mp (List.append_inj_left hlist hlength))

end OpenApi

theorem Python.heading_prepare (group version : String) (doc : OpenApi) :
    (prepare group version doc).heading = doc.heading := by
  have hrename : ∀ (names : List String) (doc : OpenApi),
      (names.foldl (renameOne group version) doc).heading = doc.heading := by
    intro names
    induction names with
    | nil => exact fun _ => rfl
    | cons name rest ih =>
      intro doc
      rw [List.foldl_cons, ih, renameOne]
      split <;> rfl
  exact hrename _ doc

theorem FileTree.textEntry_inj {text text' : String} (h : textEntry text = textEntry text') :
    text = text' := by
  have hbytes : Text.encode text = Text.encode text' := congrArg Entry.contents h
  have hdecoded := congrArg Text.decode? hbytes
  rw [Text.decode?_encode, Text.decode?_encode] at hdecoded
  exact Option.some.inj hdecoded

/-- Where two documents are staged at one path, the second of them is found there. -/
theorem Python.exists_stage_pair {σ : Type} [FileStore σ] {files : σ} {exclude : List String}
    {m m' : Manifest} {e e' : Extract} {path : String}
    (hm : Collect.manifests files exclude = some [m, m']) (he : m.extracts = some [e])
    (he' : m'.extracts = some [e']) (hpath : Path.normalizeFile (stagedText e).1 = .ok path)
    (hpath' : Path.normalizeFile (stagedText e').1 = .ok path) :
    ∃ t, stage files exclude = .ok t ∧
      lookup? t path = some (FileTree.textEntry (stagedText e').2) := by
  have hl := Collect.documents_anonymous files exclude
  rw [hm, Option.bind_some, gather, gather, gather, he, he'] at hl
  obtain ⟨extracts, hd, hpair⟩ := Option.map_eq_some_iff.mp hl
  have hpaths : ∀ file ∈ [stagedText e, stagedText e'],
      ∃ key, Path.normalizeFile file.1 = .ok key := by
    simpa using ⟨⟨path, hpath⟩, path, hpath'⟩
  obtain ⟨t, ht⟩ := FileTree.exists_writeTexts hpaths ∅
  have hstaged : extracts.map stagedText = [stagedText e, stagedText e'] := by
    rw [← stagedTexts_anonymous, hpair]
    rfl
  refine ⟨t, stage_eq_ok.mpr ⟨extracts, Outcome.toOption_eq_some.mp hd, hstaged ▸ ht⟩, ?_⟩
  rw [FileTree.lookup?_writeTexts ht, get?_placed_cons hpath, get?_placed_cons hpath']
  simp [placed, keyed, Dict.ofList, Dict.get?]

/-- Each of two manifests has one document, both are staged at one path, and they differ. -/
def clash (path : String) (m m' : Manifest) : Bool :=
  match m.extracts, m'.extracts with
  | some [e], some [e'] =>
    (Path.normalizeFile (Python.stagedText e).1).toOption = some path &&
      (Path.normalizeFile (Python.stagedText e').1).toOption = some path &&
        e.document.heading.length = e'.document.heading.length &&
          e.document.heading ≠ e'.document.heading
  | _, _ => false

theorem exists_of_clash {path : String} {m m' : Manifest} (h : clash path m m' = true) :
    ∃ e e', m.extracts = some [e] ∧ m'.extracts = some [e'] ∧
      Path.normalizeFile (Python.stagedText e).1 = .ok path ∧
      Path.normalizeFile (Python.stagedText e').1 = .ok path ∧
      (Python.stagedText e).2 ≠ (Python.stagedText e').2 := by
  unfold clash at h
  split at h
  · next e e' he he' =>
    simp only [Bool.and_eq_true, decide_eq_true_eq, Outcome.toOption_eq_some] at h
    obtain ⟨⟨⟨hpath, hpath'⟩, hlength⟩, hne⟩ := h
    rw [← Python.heading_prepare e.group e.version e.document,
      ← Python.heading_prepare e'.group e'.version e'.document] at hlength hne
    exact ⟨e, e', he, he', hpath, hpath', OpenApi.toYaml_ne hlength hne⟩
  · cases h

/-- The text of a file that defines a kind under a name of its own. -/
def namedText (name group kind : String) : String :=
  "\x7bkind: CustomResourceDefinition, metadata: \x7bname: " ++ name ++
    "\x7d, spec: \x7bgroup: " ++ group ++ ", names: \x7bkind: " ++ kind ++
      "\x7d, versions: [\x7bname: v, served: true, schema: \x7bopenAPIV3Schema: \x7b\x7d" ++
        "\x7d\x7d]\x7d\x7d"

theorem toList_namedText (name group kind : String) :
    (namedText name group kind).toList =
      "\x7bkind: CustomResourceDefinition, metadata: \x7bname: ".toList ++ name.toList ++
        "\x7d, spec: \x7bgroup: ".toList ++ group.toList ++ ", names: \x7bkind: ".toList ++
          kind.toList ++
            "\x7d, versions: [\x7bname: v, served: true, schema: \x7bopenAPIV3Schema: \x7b\x7d".toList
              ++ "\x7d\x7d]\x7d\x7d".toList := by
  unfold namedText
  simp only [String.toList_append]

theorem marks_evaluated :
    pairHolds (fun m m' => namesApart m m' && decide ((∀ k ∈ m.kinds, k.Placed) ∧
        ∀ k ∈ m'.kinds, k.Placed) && clash "a_v_v_c.yaml" m m')
      (namedText "one" "a.v" "c").toList (namedText "two" "a" "v_c").toList = true := by
  simp only [toList_namedText, String.reduceToList]
  decide +kernel

/-- Two kinds are staged under one name, so the file that comes last decides what is found there. -/
theorem marks_outputs_differ :
    let one := namedText "one" "a.v" "c"
    let two := namedText "two" "a" "v_c"
    ∃ ms ms' t t', Collect.manifests (twoFiles one two) [] = some ms ∧
      Collect.manifests (twoFiles two one) [] = some ms' ∧
      SameDefinitions ms ms' ∧ DefinitionsApart ms ∧ (∀ m ∈ ms, ∀ k ∈ m.kinds, k.Placed) ∧
      Python.stage (twoFiles one two) [] = .ok t ∧ Python.stage (twoFiles two one) [] = .ok t' ∧
        t ≠ t' := by
  intro one two
  obtain ⟨m, m', hm, hm', h⟩ := exists_of_pairHolds marks_evaluated
  simp only [Bool.and_eq_true, decide_eq_true_eq] at h
  obtain ⟨⟨hnames, hkinds⟩, hclash⟩ := h
  obtain ⟨e, e', he, he', hpath, hpath', hne⟩ := exists_of_clash hclash
  have hfirst := manifests_pair (holdTexts_twoFiles one two) hm hm'
  have hsecond := manifests_pair (holdTexts_twoFiles two one) hm' hm
  obtain ⟨t, ht, hlookup⟩ := Python.exists_stage_pair hfirst he he' hpath hpath'
  obtain ⟨t', ht', hlookup'⟩ := Python.exists_stage_pair hsecond he' he hpath' hpath
  refine ⟨_, _, t, t', hfirst, hsecond, sameDefinitions_pair m m',
    definitionsApart_pair (apart_of_namesApart hnames), by simpa using hkinds, ht, ht', ?_⟩
  rintro rfl
  exact hne (FileTree.textEntry_inj (Option.some.inj (hlookup'.symm.trans hlookup)))

end ResourceModels
