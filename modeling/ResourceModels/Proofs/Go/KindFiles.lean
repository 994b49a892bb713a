import ResourceModels.Proofs.Go.Distribution

/-!
# The file of every kind

What emission has declared it never declares again, so the file of a document keeps the declaration
of each component as it was made. Whether a kind is lost is then decided by paths and names: no two
kinds may have one path, none that of the shared package, and no kind the name of a shared
component, since those are taken out of the document.
-/

namespace ResourceModels.Go

open FileStore (lookup?)
open Python (Kind)

namespace Emission

/-- A run declares begun types only, and none that it found declared. -/
structure KeepsDeclared (e e' : Emission) : Prop extends DeclaresBegun e e' where
  declared : e.AllBegun → ∀ name d, e.declarations.get? name = some d →
    e'.declarations.get? name = some d

theorem kept_keepsDeclared : Kept KeepsDeclared where
  refl e := ⟨kept_declaresBegun.refl e, fun _ _ _ h => h⟩
  trans h₁ h₂ := by
    refine ⟨kept_declaresBegun.trans h₁.toDeclaresBegun h₂.toDeclaresBegun, fun he name d hd => ?_⟩
    exact h₂.declared (h₁.within he) name d (h₁.declared he name d hd)
  imported e source := by
    refine ⟨kept_declaresBegun.imported e source, fun _ name d hd => ?_⟩
    rcases source with _ | ⟨_, _⟩ <;> exact hd
  declared {e e₁ d} hfree hd hR := by
    refine ⟨kept_declaresBegun.declared hfree hd hR.toDeclaresBegun, fun he name own hown => ?_⟩
    have hbegun : name ∈ e.begun :=
      he (Dict.isSome_get?_iff.mp (Option.isSome_iff_exists.mpr ⟨own, hown⟩))
    have hne : d.name ≠ name := fun h => hfree (h ▸ hbegun)
    rw [Emission.declaring, Dict.get?_insert, if_neg hne]
    exact hR.declared (he.beginning d.name) name own hown

variable {components : Dict String}

/-- The declaration of a component under a name, with the body that emission finds for its schema. -/
def IsDeclarationOf (components : Dict String) (component name : String) (s : Schema)
    (d : Declaration) : Prop :=
  d.name = name ∧ d.comment = componentComment component s ∧
    ∃ e e', (componentBody components name s).run e = .ok (d.body, e')

theorem isDeclarationOf_of_run {component name : String} {s : Schema} {u : Unit} {e e' : Emission}
    (h : (declareComponent components component name s).run e = .ok (u, e')) :
    ∃ d, IsDeclarationOf components component name s d ∧
      e'.declarations.get? name = some d := by
  obtain ⟨_, e₁, hb, hrest⟩ := run_bind.mp h
  obtain ⟨body, e₂, hr, hd⟩ := run_bind.mp hrest
  obtain rfl := run_declare.mp hd
  refine ⟨⟨name, componentComment component s, body⟩, ⟨rfl, rfl, e₁, e₂, hr⟩, ?_⟩
  rw [Emission.declaring, Dict.get?_insert, if_pos rfl]
  rfl

theorem exists_declared_of_declareAll {schemas : List (String × Schema)} {e e' : Emission}
    (he : e.AllBegun) (h : declareAll components e schemas = .ok e') {c : String × Schema}
    (hc : c ∈ schemas) :
    ∃ d, IsDeclarationOf components c.1 (declaredName components c.1) c.2 d ∧
      e'.declarations.get? (declaredName components c.1) = some d := by
  induction schemas generalizing e with
  | nil => cases hc
  | cons first rest ih =>
    obtain ⟨e₁, hfirst, hrest⟩ := declareAll_cons_ok h
    have he₁ : e₁.AllBegun := (kept_declaresBegun.declareComponent hfirst).within he
    rcases List.mem_cons.mp hc with rfl | hc
    · obtain ⟨d, hd, hget⟩ := isDeclarationOf_of_run hfirst
      exact ⟨d, hd, (kept_keepsDeclared.declareAll hrest).declared he₁ _ d hget⟩
    · exact ih he₁ hrest hc

end Emission

/-- A file has the type of a component of a document, under the name that the component goes by. -/
def SourceFile.Declares (f : SourceFile) (doc : OpenApi) (component : String) : Prop :=
  ∃ s name d, (component, s) ∈ doc.schemas ∧
    (Emission.componentNames [] doc.schemas).get? component = some name ∧
    Emission.IsDeclarationOf (Emission.componentNames [] doc.schemas) component name s d ∧
    f.declarations.get? name = some d

theorem declares_of_emit {doc : OpenApi} {package : String} {f : SourceFile}
    (h : emit doc package = .ok f) {component : String} (hc : component ∈ doc.schemas.keys) :
    f.Declares doc component := by
  obtain ⟨e, he, rfl⟩ := Emission.emit_ok h
  obtain ⟨⟨_, s⟩, hmem, rfl⟩ := List.mem_map.mp hc
  obtain ⟨name, hname⟩ := Emission.exists_get?_componentNames hc
  have hbegun : Emission.AllBegun {} := fun _ hk => absurd hk (by simp [Dict.keys])
  obtain ⟨d, hd, hget⟩ := Emission.exists_declared_of_declareAll hbegun he hmem
  rw [Emission.declaredName, hname] at hd hget
  exact ⟨s, name, d, hmem, hname, hd, hget⟩

/-- The path of the file of a kind. -/
def filePath? (e : Extract) : Option String :=
  (Path.normalizeFile (modelPath e.group e.kind e.version)).toOption

/-- Every kind has a file of its own in a tree, with the type of its component. -/
structure KindsKept (extracts : List Extract) (t : FileTree) : Prop where
  apart : (extracts.map filePath?).Nodup
  declared : ∀ e ∈ extracts, ∃ (path : String) (f : SourceFile), filePath? e = some path ∧
    path ≠ "models/go.mod" ∧ path ≠ sharedPath ∧
    lookup? t path = some (FileTree.textEntry f.text) ∧
    f.Declares (prepare e.document) e.kindComponent

/-- The kind whose file would be that of the shared package. -/
def sharedKind : Kind := ⟨"meta.k8s.io", "v1", "meta"⟩

section

variable {extracts : List Extract}

theorem kindAt?_of_nodup (hapart : (extracts.map filePath?).Nodup) {e : Extract}
    (he : e ∈ extracts) {path : String} (hpath : filePath? e = some path) :
    kindAt? extracts path = some e := by
  have hkey : Path.normalizeFile (modelPath e.group e.kind e.version) = .ok path :=
    Outcome.toOption_eq_some.mp hpath
  have hfile : (modelPath e.group e.kind e.version, e) ∈
      extracts.map fun e => (modelPath e.group e.kind e.version, e) := List.mem_map_of_mem he
  have hpaths : (extracts.map fun e => (modelPath e.group e.kind e.version, e)).map
      (fun file => (Path.normalizeFile file.1).toOption) = extracts.map filePath? := by
    rw [List.map_map]
    exact List.map_congr_left fun _ _ => by rw [Function.comp_apply, filePath?]
  rw [← hpaths] at hapart
  have hplaced := get?_placed_of_nodup hapart hfile hkey
  rwa [kindAt?]

theorem filePath?_toKind (e : Extract) :
    filePath? e = (Path.normalizeFile (kindPath e.toKind)).toOption := rfl

theorem filePath?_eq_iff {e e' : Extract} (h : e.toKind.Placed) (h' : e'.toKind.Placed)
    (hsome : (filePath? e).isSome) : filePath? e = filePath? e' ↔ e.toKind = e'.toKind := by
  constructor
  · intro hsame
    obtain ⟨path, hpath⟩ := Option.isSome_iff_exists.mp hsome
    rw [hpath, eq_comm, filePath?_toKind, Outcome.toOption_eq_some] at hsame
    rw [filePath?_toKind, Outcome.toOption_eq_some] at hpath
    exact eq_of_kindPath h h' hpath hsame
  · intro hsame
    rw [filePath?_toKind, filePath?_toKind, hsame]

theorem placed_sharedKind : sharedKind.Placed := by decide

theorem filePath?_eq_sharedPath_iff {e : Extract} (h : e.toKind.Placed) :
    filePath? e = some sharedPath ↔ e.toKind = sharedKind := by
  have hshared : Path.normalizeFile (kindPath sharedKind) = .ok sharedPath := by decide
  rw [filePath?_toKind, Outcome.toOption_eq_some]
  constructor
  · exact fun hpath => eq_of_kindPath h placed_sharedKind hpath hshared
  · rintro hkind
    rw [hkind, hshared]

theorem nodup_filePath?_iff (hplaced : ∀ e ∈ extracts, e.toKind.Placed)
    (hsome : ∀ e ∈ extracts, (filePath? e).isSome) :
    (extracts.map filePath?).Nodup ↔ (extracts.map Extract.toKind).Nodup := by
  rw [List.Nodup, List.Nodup, List.pairwise_map, List.pairwise_map]
  exact List.Pairwise.iff_of_mem fun he he' =>
    (filePath?_eq_iff (hplaced _ he) (hplaced _ he') (hsome _ he)).not

theorem sharedPath_notMem_iff (hplaced : ∀ e ∈ extracts, e.toKind.Placed) :
    some sharedPath ∉ extracts.map filePath? ↔ sharedKind ∉ extracts.map Extract.toKind := by
  rw [List.mem_map, List.mem_map]
  exact not_congr (exists_congr fun e => and_congr_right fun he =>
    filePath?_eq_sharedPath_iff (hplaced e he))

end

section

variable {σ : Type} [FileStore σ] {files : σ} {exclude : List String} {extracts : List Extract}
  {t : FileTree}

theorem exists_filePath?_of_generate (h : generate files exclude = .ok (some t))
    (hd : Collect.documents files exclude = .ok extracts) :
    ∀ e ∈ extracts, ∃ path, filePath? e = some path := by
  obtain ⟨_, hd', _, _, ht⟩ := generate_ok h
  cases hd.symm.trans hd'
  intro e he
  have hsource : kindSource e ∈ sources extracts :=
    List.mem_cons_of_mem _ (List.mem_map_of_mem he)
  obtain ⟨⟨path, hpath⟩, _⟩ := writable_of_writeSources ht _ hsource
  exact ⟨path, Outcome.toOption_eq_some.mpr hpath⟩

/-- A kind whose component is not taken out of its document has its type in the file that was made
for the document. -/
theorem declares_kindComponent (hd : Collect.documents files exclude = .ok extracts) {e : Extract}
    (he : e ∈ extracts) (hown : Vocabulary.isShared e.kindComponent = false) {f : SourceFile}
    (hf : emit (prepare e.document) e.version = .ok f) :
    f.Declares (prepare e.document) e.kindComponent := by
  refine declares_of_emit hf ?_
  rw [keys_prepare, List.mem_filter]
  exact ⟨Collect.kindComponent_mem hd he, by simp [hown]⟩

theorem SourceFile.Declares.unshared {f : SourceFile} {doc : OpenApi} {component : String}
    (h : f.Declares (prepare doc) component) : Vocabulary.isShared component = false := by
  obtain ⟨s, _, _, hmem, _⟩ := h
  have hkey : component ∈ (prepare doc).schemas.keys := List.mem_map_of_mem hmem
  rw [keys_prepare, List.mem_filter] at hkey
  simpa using hkey.2

theorem kindsKept_iff (hd : Collect.documents files exclude = .ok extracts)
    (hpaths : ∀ e ∈ extracts, ∃ path, filePath? e = some path)
    (hlookup : ∀ path, Text.endsWith ".go" path = true →
      lookup? t path = (fileAt? extracts path).map fun f => FileTree.textEntry f.text)
    (hfiles : ∀ path d, (preparedAt extracts).get? path = some d →
      ∃ f, fileAt? extracts path = some f ∧ emit d.1 d.2 = .ok f) :
    KindsKept extracts t ↔ (extracts.map filePath?).Nodup ∧
      some sharedPath ∉ extracts.map filePath? ∧
      ∀ e ∈ extracts, Vocabulary.isShared e.kindComponent = false := by
  constructor
  · intro hkept
    refine ⟨hkept.apart, fun hshared => ?_, fun e he => ?_⟩
    · obtain ⟨e, he, hpath⟩ := List.mem_map.mp hshared
      obtain ⟨path, _, hpath', _, hne, _⟩ := hkept.declared e he
      exact hne (Option.some.inj (hpath'.symm.trans hpath))
    · obtain ⟨_, _, _, _, _, _, hdeclares⟩ := hkept.declared e he
      exact hdeclares.unshared
  · rintro ⟨hapart, hshared, hown⟩
    refine ⟨hapart, fun e he => ?_⟩
    obtain ⟨path, hpath⟩ := hpaths e he
    have hat := preparedAt_eq extracts path
    rw [kindAt?_of_nodup hapart he hpath, Option.map_some, Option.some_or] at hat
    obtain ⟨f, hf, hemit⟩ := hfiles path _ hat
    have hgo := endsWith_of_preparedAt hat
    refine ⟨path, f, hpath, ?_, ?_, ?_, declares_kindComponent hd he (hown e he) hemit⟩
    · rintro rfl
      exact absurd hgo (by decide)
    · rintro rfl
      exact hshared (List.mem_map.mpr ⟨e, he, hpath⟩)
    · rw [hlookup path hgo, hf, Option.map_some]

/-- No kind is lost in a generated tree if and only if the paths of the kinds differ from each other
and from that of the shared package, and no kind has the name of a shared component. Where groups
and versions are labels and names hold no separators, that is so exactly if the kinds differ, with
names in lower case, from each other and from the kind `Meta` of the shared package. -/
theorem generate_kindsKept_iff (h : generate files exclude = .ok (some t)) :
    ∃ extracts, Collect.documents files exclude = .ok extracts ∧
      (KindsKept extracts t ↔ (extracts.map filePath?).Nodup ∧
        some sharedPath ∉ extracts.map filePath? ∧
        ∀ e ∈ extracts, Vocabulary.isShared e.kindComponent = false) ∧
      ((∀ e ∈ extracts, e.toKind.Placed) →
        (KindsKept extracts t ↔ (extracts.map Extract.toKind).Nodup ∧
          sharedKind ∉ extracts.map Extract.toKind ∧
          ∀ e ∈ extracts, Vocabulary.isShared e.kindComponent = false)) := by
  obtain ⟨extracts, hd, hlookup, hfiles, _⟩ := exists_files_of_generate h
  have hpaths := exists_filePath?_of_generate h hd
  have hkept := kindsKept_iff hd hpaths hlookup hfiles
  refine ⟨extracts, hd, hkept, fun hplaced => hkept.trans ?_⟩
  rw [nodup_filePath?_iff hplaced fun e he => ?_, sharedPath_notMem_iff hplaced]
  exact Option.isSome_iff_exists.mpr (hpaths e he)

end

/-- Two kinds whose names differ in the case of a letter only. -/
def letterCases : FileTree :=
  .ofEntries
    [("a.yaml", Collect.definitionFile "a" "AB" "\x7b\x7d"),
      ("b.yaml", Collect.definitionFile "a" "Ab" "\x7b\x7d")]

/-- Group, version and name of a kind. -/
def names (e : Extract) : String × String × String := (e.group, e.version, e.kind)

theorem names_comp_withVocabulary : names ∘ Extract.withVocabulary = names := by
  funext ⟨group, kind, version, source, document⟩
  calc names (Extract.withVocabulary ⟨group, kind, version, source, document⟩)
      = (group, version, kind) := rfl
    _ = names ⟨group, kind, version, source, document⟩ := rfl

/-- The kinds can be written, and they are those of the given groups, versions and names. -/
def ownAre (kinds : List (String × String × String)) (own : List Extract) : Bool :=
  (own.all fun e => decide (OwnWritable e)) && own.map names == kinds

theorem exists_generate_of_ownAre {σ : Type} [FileStore σ] {files : σ} {exclude : List String}
    {kinds : List (String × String × String)} (hne : kinds ≠ [])
    (h : Collect.ownHold (ownAre kinds) (Collect.resources files exclude) = true) :
    ∃ t extracts, generate files exclude = .ok (some t) ∧
      Collect.documents files exclude = .ok extracts ∧ extracts.map names = kinds := by
  obtain ⟨own, hd, hown⟩ := Collect.exists_of_ownHold h
  simp only [ownAre, Bool.and_eq_true, List.all_eq_true, decide_eq_true_eq, beq_iff_eq] at hown
  obtain ⟨hwritable, hkinds⟩ := hown
  have hsome : own.map Extract.withVocabulary ≠ [] := by
    rintro hnil
    rw [List.map_eq_nil_iff.mp hnil] at hkinds
    exact hne hkinds.symm
  obtain ⟨t, ht⟩ := exists_generate hd hsome
    (List.forall_mem_map.mpr fun e he => (hwritable e he).writable)
  refine ⟨t, _, ht, hd, ?_⟩
  rw [List.map_map, names_comp_withVocabulary, hkinds]

theorem forall_of_names {extracts : List Extract} {kinds : List (String × String × String)}
    (hkinds : extracts.map names = kinds) {P : String × String × String → Prop}
    (h : ∀ k ∈ kinds, P k) : ∀ e ∈ extracts, P (names e) :=
  fun _ he => h _ (hkinds ▸ List.mem_map_of_mem he)

theorem filePath?_comp_names : filePath? =
    (fun k => (Path.normalizeFile (modelPath k.1 k.2.2 k.2.1)).toOption) ∘ names := by
  funext e
  rw [Function.comp_apply, names, filePath?]

theorem toKind_comp_names :
    Extract.toKind = (fun k => ⟨k.1, k.2.1, Text.lower k.2.2⟩) ∘ names := rfl

theorem holdTexts_letterCases :
    Collect.HoldTexts letterCases []
      [("a.yaml", Collect.definitionText "a" "AB" "\x7b\x7d"),
        ("b.yaml", Collect.definitionText "a" "Ab" "\x7b\x7d")] :=
  Collect.holdTexts_ofEntries (.refl _) (by decide) (by decide) (by decide)

theorem letterCases_evaluated :
    Collect.ownHold (ownAre [("a", "v", "AB"), ("a", "v", "Ab")])
      (Collect.resources letterCases []) = true := by
  rw [holdTexts_letterCases.resources_eq]
  simp only [Collect.charsOf, List.map_cons, List.map_nil, Collect.toList_definitionText,
    String.reduceToList]
  decide +kernel

/-- Different kinds go to one path, so one of them is lost. -/
theorem letterCases_not_kindsKept :
    ∃ t extracts, generate letterCases [] = .ok (some t) ∧
      Collect.documents letterCases [] = .ok extracts ∧
      (extracts.map names).Nodup ∧ ¬KindsKept extracts t := by
  obtain ⟨t, extracts, ht, hd, hkinds⟩ := exists_generate_of_ownAre (by decide) letterCases_evaluated
  refine ⟨t, extracts, ht, hd, hkinds ▸ (by decide), fun hkept => ?_⟩
  have hpaths : extracts.map filePath? = [some "models/a/v/ab.go", some "models/a/v/ab.go"] := by
    rw [filePath?_comp_names, ← List.map_map, hkinds]
    decide
  have hapart := hkept.apart
  rw [hpaths] at hapart
  exact absurd hapart (by decide)

theorem nestedAndKind_kinds :
    Collect.ownHold (ownAre [("a", "v", "A"), ("a", "v", "AB")])
      (Collect.resources nestedAndKind []) = true := by
  rw [holdTexts_nestedAndKind.resources_eq]
  simp only [Collect.charsOf, List.map_cons, List.map_nil, Collect.toList_definitionText,
    String.reduceToList]
  decide +kernel

theorem nestedAndKind_kindsKept :
    ∃ t extracts, generate nestedAndKind [] = .ok (some t) ∧
      Collect.documents nestedAndKind [] = .ok extracts ∧
      (∀ e ∈ extracts, e.toKind.Placed) ∧ KindsKept extracts t := by
  obtain ⟨t, extracts, ht, hd, hkinds⟩ := exists_generate_of_ownAre (by decide) nestedAndKind_kinds
  obtain ⟨_, hd', _, hiff⟩ := generate_kindsKept_iff ht
  cases hd.symm.trans hd'
  have hplaced : ∀ e ∈ extracts, e.toKind.Placed := by
    refine forall_of_names hkinds (P := fun k => Kind.Placed ⟨k.1, k.2.1, Text.lower k.2.2⟩) ?_
    decide
  have hunshared : ∀ e ∈ extracts, Vocabulary.isShared e.kindComponent = false := by
    refine forall_of_names hkinds
      (P := fun k => Vocabulary.isShared (componentName k.1 k.2.1 k.2.2) = false) ?_
    decide
  have htoKind : extracts.map Extract.toKind = [⟨"a", "v", "a"⟩, ⟨"a", "v", "ab"⟩] := by
    rw [toKind_comp_names, ← List.map_map, hkinds]
    decide
  refine ⟨t, extracts, ht, hd, hplaced, (hiff hplaced).mpr ⟨?_, ?_, hunshared⟩⟩
  · rw [htoKind]
    decide
  · rw [htoKind]
    decide

end ResourceModels.Go
