import ResourceModels.Proofs.Go.ExportedNames
import ResourceModels.Proofs.Go.SharedPackage

/-!
# Valid names

Go takes an identifier for the package of a file, and the types, fields and constants that it
declares have to be exported to be of use. Fields always are. The rest follows from two things that
are written as they stand: the version of a document is its package, and the short names of its
components begin the names of its types.
-/

namespace ResourceModels.Go

open FileStore (lookup?)
open Schema (Throughout)

/-- What counts as a letter and as a digit. Of the first 128 characters the usual ones do. -/
structure Alphabet where
  isLetter : Char → Bool
  isDigit : Char → Bool
  isLetter_ascii : ∀ c : Char, c.toNat < 128 → isLetter c = c.isAlpha
  isDigit_ascii : ∀ c : Char, c.toNat < 128 → isDigit c = c.isDigit

def reservedWords : List String :=
  ["break", "case", "chan", "const", "continue", "default", "defer", "else", "fallthrough", "for",
    "func", "go", "goto", "if", "import", "interface", "map", "package", "range", "return",
    "select", "struct", "switch", "type", "var"]

def IsIdentifier (u : Alphabet) (name : String) : Prop :=
  name ∉ reservedWords ∧ ∃ first rest, name.toList = first :: rest ∧
    (u.isLetter first = true ∨ first = '_') ∧
      ∀ c ∈ rest, u.isLetter c = true ∨ u.isDigit c = true ∨ c = '_'

structure SourceFile.ValidNames (u : Alphabet) (f : SourceFile) : Prop where
  package : IsIdentifier u f.package
  types : ∀ d ∈ f.types, IsExported d.name
  fields : ∀ d ∈ f.types, ∀ name ∈ d.body.fieldNames, IsExported name
  constants : ∀ d ∈ f.types, ∀ name ∈ d.body.constantNames, IsExported name

theorem isIdentifier_v1 (u : Alphabet) : IsIdentifier u "v1" := by
  refine ⟨by decide, 'v', ['1'], rfl, .inl ?_, fun c hc => .inr (.inl ?_)⟩
  · rw [u.isLetter_ascii 'v' (by decide)]
    decide
  · rw [List.mem_singleton.mp hc, u.isDigit_ascii '1' (by decide)]
    decide

theorem isExported_fieldName (taken : List String) (property : String) :
    IsExported (Emission.fieldName taken property) := by
  unfold Emission.fieldName
  dsimp only
  split
  · have hfield : IsExported "Field" := by decide
    exact (isExported_unique_iff hfield.isAlphanumeric taken).mpr hfield
  · next hne =>
    rw [isExported_unique_iff (isAlphanumeric_exported property)]
    exact isExported_exported (by_contra fun h => hne (exported_eq_empty_iff.mpr h))

theorem isExported_constantName {typeName : String} (h : IsExported typeName) (taken : List String)
    (value : String) : IsExported (Emission.constantName typeName taken value) := by
  have hvalue : IsAlphanumeric (if value = "" then "Empty" else exported value) := by
    split
    · exact (show IsExported "Empty" by decide).isAlphanumeric
    · exact isAlphanumeric_exported value
  exact (isExported_unique_iff (h.isAlphanumeric.append hvalue) taken).mpr (h.append hvalue)

/-- What is added to an exported name is kept with it. -/
theorem IsExported.shortName_append {name other : String} (h : IsExported name)
    (ho : IsAlphanumeric other) : IsExported (shortName (name ++ other)) := by
  refine isExported_shortName (h.isAlphanumeric.append ho) fun hempty => ?_
  obtain ⟨first, rest, hname, _⟩ := isExported_iff.mp h
  have hlist := congrArg String.toList hempty
  simp [hname] at hlist

/-- A schema that names its type uses an exported name. -/
def NamedExported (k : Keywords) : Prop :=
  ∀ name, k.extensionText? typeNameKey = some name → IsExported name

theorem namesHold_isExported (components : Dict String) :
    Emission.NamesHold components NamedExported IsExported IsExported where
  field typeName taken property h := by
    have htype : IsExported typeName := h.elim id id
    exact htype.shortName_append (isExported_fieldName taken property).isAlphanumeric
  value _ h := h.append isAlphanumeric_value
  name k hint begun hk h := by
    have hwanted : IsExported (Emission.wantedName k hint) := by
      unfold Emission.wantedName
      cases hname : k.extensionText? typeNameKey with
      | none => exact h
      | some name => exact hk name hname
    exact (isExported_unique_iff hwanted.isAlphanumeric _).mpr hwanted

/-- A document whose components are named after their short names. -/
structure ShortNamed (doc : OpenApi) : Prop where
  wanted : ∀ c ∈ doc.schemas, ∀ hint, Emission.wantedName c.2.keywords hint = shortName c.1
  named : ∀ c ∈ doc.schemas, IsExported (shortName c.1) → c.2.Throughout NamedExported

section

variable {doc : OpenApi} {package : String} {f : SourceFile}

theorem isExported_declaredName_iff (h : ShortNamed doc) {component : String}
    (hc : component ∈ Dict.keys doc.schemas) :
    IsExported (Emission.declaredName (Emission.componentNames [] doc.schemas) component) ↔
      IsExported (shortName component) := by
  obtain ⟨name, hname⟩ := Emission.exists_get?_componentNames hc
  rcases Emission.exists_unique_of_get?_componentNames hname with hnone | ⟨s, taken, hs, rfl⟩
  · cases hnone
  · rw [Emission.declaredName, hname, Option.getD_some, h.wanted _ hs]
    exact isExported_unique_iff (isAlphanumeric_shortName component) taken

/-- All types have exported names if and only if all components have exported short names. -/
theorem isExported_documentTypes_iff (h : ShortNamed doc) :
    (∀ t ∈ documentTypes doc, IsExported t.name) ↔
      ∀ component ∈ Dict.keys doc.schemas, IsExported (shortName component) := by
  constructor
  · intro htypes component hc
    rw [← isExported_declaredName_iff h hc]
    have hname := Emission.mem_typeNames_allTypes (Emission.componentNames [] doc.schemas) hc []
    obtain ⟨t, ht, heq⟩ := List.mem_map.mp hname
    exact heq ▸ htypes t ht
  · intro hshort
    refine (namesHold_isExported _).allTypes (fun c hc => ?_) (fun c hc => ?_) []
    · exact h.named c hc (hshort c.1 (List.mem_map_of_mem hc))
    · have hkey : c.1 ∈ Dict.keys doc.schemas := List.mem_map_of_mem hc
      exact (isExported_declaredName_iff h hkey).mpr (hshort c.1 hkey)

theorem wellFormed_of_emit (h : emit doc package = .ok f) :
    f.package = package ∧ ∀ d ∈ f.types, d.WellFormed := by
  obtain ⟨e, he, rfl⟩ := Emission.emit_ok h
  refine ⟨rfl, fun d hd => ?_⟩
  obtain ⟨p, hp, rfl⟩ := List.mem_map.mp hd
  exact (Emission.wellDeclared_of_declareAll he).wellFormed p hp

theorem isExported_fieldNames (h : emit doc package = .ok f) :
    ∀ d ∈ f.types, ∀ name ∈ d.body.fieldNames, IsExported name := by
  intro d hd name hname
  obtain ⟨taken, property, rfl⟩ := ((wellFormed_of_emit h).2 d hd).fields name hname
  exact isExported_fieldName taken property

theorem validNames_iff (u : Alphabet) (h : emit doc package = .ok f) (hdoc : ShortNamed doc) :
    f.ValidNames u ↔ IsIdentifier u package ∧
      ∀ component ∈ Dict.keys doc.schemas, IsExported (shortName component) := by
  obtain ⟨hpackage, hwell⟩ := wellFormed_of_emit h
  have hperm := typeNames_perm_documentTypes h
  have htypes : (∀ d ∈ f.types, IsExported d.name) ↔
      ∀ t ∈ documentTypes doc, IsExported t.name := by
    constructor
    · intro hall t ht
      obtain ⟨d, hd, heq⟩ := List.mem_map.mp (hperm.mem_iff.mpr (List.mem_map_of_mem ht))
      exact heq ▸ hall d hd
    · intro hall d hd
      obtain ⟨t, ht, heq⟩ := List.mem_map.mp (hperm.mem_iff.mp (List.mem_map_of_mem hd))
      exact heq ▸ hall t ht
  rw [isExported_documentTypes_iff hdoc] at htypes
  rw [← htypes, ← hpackage]
  constructor
  · exact fun hvalid => ⟨hvalid.package, hvalid.types⟩
  · rintro ⟨hidentifier, hexported⟩
    refine ⟨hidentifier, hexported, isExported_fieldNames h, fun d hd name hname => ?_⟩
    obtain ⟨taken, value, rfl⟩ := (hwell d hd).constants name hname
    exact isExported_constantName (hexported d hd) taken value

/-- Naming keeps to a property of names that names of properties have where the one before has. -/
theorem throughout_namedBy {P : String → Prop} {keys : List String} (hkeys : typeNameKey ∈ keys)
    (hproperty : ∀ base property, P base → P (shortName (base ++ exported property))) {s : Schema}
    (hs : s.Throughout (Keywords.Lacks keys)) {name : String} (h : P name) :
    (named name s).Throughout (NamedBy P) := by
  refine (throughout_named hproperty (fun k hk name hname => ?_) (fun k own _ hown name hname => ?_)
    hs h).1
  · rw [Keywords.extensionText?, hk typeNameKey hkeys] at hname
    cases hname
  · rw [Keywords.extensionText?, Keywords.withTypeName, extension?_setExtension,
      if_pos rfl] at hname
    cases hname
    exact hown

theorem namedBy_readied {P : String → Prop} {s : Schema} (h : s.Throughout (NamedBy P)) :
    (Schema.mapKeywords readied s).Throughout (NamedBy P) :=
  h.mapKeywords fun k hk => hk.congr (extension?_readied (by decide) k)

theorem isExported_property (base property : String) (h : IsExported base) :
    IsExported (shortName (base ++ exported property)) :=
  h.shortName_append (isAlphanumeric_exported property)

theorem extension?_ready {key : String} (htype : typeKey ≠ key) (hsource : importKey ≠ key)
    (s : Schema) : (ready s).keywords.extension? key = s.keywords.extension? key := by
  rw [ready]
  cases htarget : sharedTarget? { s with keywords := readied s.keywords } with
  | none =>
    rw [useShared_of_none htarget]
    exact extension?_readied htype s.keywords
  | some target =>
    rw [useShared_of_some htarget, sharedKeywords, extension?_setExtension, if_neg hsource,
      extension?_setExtension, if_neg htype]
    exact extension?_readied htype s.keywords

theorem namedBy_ready {P : String → Prop} {s : Schema} (h : s.Throughout (NamedBy P)) :
    (Schema.mapNodes ready s).Throughout (NamedBy P) :=
  h.mapNodes (fun s => parts_useShared { s with keywords := readied s.keywords })
    fun s hs => hs.congr (extension?_ready (by decide) (by decide) s)

theorem wantedName_of_extension {k : Keywords} {name : String}
    (h : k.extension? typeNameKey = some (.str name)) (hint : String) :
    Emission.wantedName k hint = name := by
  rw [Emission.wantedName, Keywords.extensionText?, h]
  rfl

theorem extension?_named (name : String) (s : Schema) :
    (named name s).keywords.extension? typeNameKey = some (.str name) := by
  rw [named, Keywords.withTypeName, extension?_setExtension, if_pos rfl]

theorem shortNamed_prepareShared
    (h : ∀ c ∈ doc.schemas, c.2.Throughout (Keywords.Lacks goKeys)) :
    ShortNamed (prepareShared doc) where
  wanted _ hc := wantedName_prepareShared hc
  named c hc hexported := by
    rw [schemas_prepareShared] at hc
    obtain ⟨own, hown, rfl⟩ := List.mem_map.mp hc
    have hs := h own hown
    exact namedBy_readied (throughout_namedBy (by decide) isExported_property hs hexported)

theorem shortNamed_prepare (h : ∀ c ∈ doc.schemas, c.2.Throughout (Keywords.Lacks goKeys)) :
    ShortNamed (prepare doc) where
  wanted c hc hint := by
    rw [schemas_prepare_ready] at hc
    obtain ⟨own, _, rfl⟩ := List.mem_map.mp hc
    refine wantedName_of_extension ?_ hint
    dsimp only
    rw [Schema.mapNodes_eq_withParts, extension?_ready (by decide) (by decide)]
    exact extension?_named (shortName own.1) own.2
  named c hc hexported := by
    rw [schemas_prepare_ready] at hc
    obtain ⟨own, hown, rfl⟩ := List.mem_map.mp hc
    have hs := h own (List.mem_of_mem_filter hown)
    exact namedBy_ready (throughout_namedBy (by decide) isExported_property hs hexported)

end

section

variable {σ : Type} [FileStore σ] {files : σ} {exclude : List String} {t : FileTree}
  {extracts : List Extract}

/-- The file of a kind has valid names if its version is an identifier and the short names of its
own components are exported. -/
theorem kindFile_validNames_iff (u : Alphabet)
    (hlack : ∀ e ∈ extracts, ∀ c ∈ e.document.schemas, c.2.Throughout (Keywords.Lacks goKeys))
    {path : String} {e : Extract} (he : kindAt? extracts path = some e)
    (hfiles : ∀ path d, (preparedAt extracts).get? path = some d →
      ∃ f, fileAt? extracts path = some f ∧ emit d.1 d.2 = .ok f) :
    ∃ f, fileAt? extracts path = some f ∧ (f.ValidNames u ↔ IsIdentifier u e.version ∧
      ∀ component ∈ Dict.keys e.document.schemas, Vocabulary.isShared component = false →
        IsExported (shortName component)) := by
  have hat := preparedAt_eq extracts path
  rw [he, Option.map_some, Option.some_or] at hat
  obtain ⟨f, hf, hemit⟩ := hfiles path _ hat
  refine ⟨f, hf, ?_⟩
  rw [validNames_iff u hemit (shortNamed_prepare (hlack e (mem_of_kindAt? he))), keys_prepare]
  simp only [List.mem_filter, Bool.not_eq_true', and_imp]

/-- The shared file, where no kind goes to its path, has valid names if the short names of the
shared components of all documents are exported. -/
theorem sharedFile_validNames_iff (u : Alphabet)
    (hlack : ∀ e ∈ extracts, ∀ c ∈ e.document.schemas, c.2.Throughout (Keywords.Lacks goKeys))
    (hfree : kindAt? extracts sharedPath = none)
    (hfiles : ∀ path d, (preparedAt extracts).get? path = some d →
      ∃ f, fileAt? extracts path = some f ∧ emit d.1 d.2 = .ok f) :
    ∃ f, fileAt? extracts sharedPath = some f ∧ (f.ValidNames u ↔
      ∀ e ∈ extracts, ∀ component ∈ Dict.keys e.document.schemas,
        Vocabulary.isShared component = true → IsExported (shortName component)) := by
  have hat := preparedAt_eq extracts sharedPath
  rw [hfree, Option.map_none, Option.none_or, if_pos rfl] at hat
  obtain ⟨f, hf, hemit⟩ := hfiles sharedPath _ hat
  have hshared := forall_mem_sharedDocument hlack
  refine ⟨f, hf, ?_⟩
  rw [validNames_iff u hemit (shortNamed_prepareShared hshared), keys_prepareShared]
  constructor
  · rintro ⟨_, hexported⟩ e he component hc hcomponent
    exact hexported component (mem_keys_sharedDocument (List.mem_map_of_mem he) hc hcomponent)
  · refine fun hexported => ⟨isIdentifier_v1 u, fun component hc => ?_⟩
    obtain ⟨c, hmem, rfl⟩ := List.mem_map.mp hc
    obtain ⟨doc, hdoc, hown, hcomponent⟩ := mem_sharedDocument hmem
    obtain ⟨e, he, rfl⟩ := List.mem_map.mp hdoc
    exact hexported e he c.1 (List.mem_map_of_mem hown) hcomponent

theorem fileAt?_cases {path : String} {f : SourceFile} (h : fileAt? extracts path = some f) :
    path = sharedPath ∨ ∃ e, kindAt? extracts path = some e := by
  obtain ⟨d, hd, _⟩ := Option.bind_eq_some_iff.mp h
  rw [preparedAt_eq] at hd
  cases he : kindAt? extracts path with
  | some e => exact .inr ⟨e, rfl⟩
  | none =>
    rw [he, Option.map_none, Option.none_or] at hd
    split at hd
    · next heq => exact .inl heq.symm
    · cases hd

/-- Where no definition uses the extensions that steer Go, a generated file has valid names exactly
if its version is an identifier and each of its components has an exported short name; its fields
always have. A component with a letter or digit after its last dot has the exported form of that
part as its short name unless that begins with a digit and letters or digits stand before it. -/
theorem generate_validNames_iff (u : Alphabet) (h : generate files exclude = .ok (some t))
    (hlack : Collect.SchemasLack goKeys files exclude) :
    (∃ extracts, Collect.documents files exclude = .ok extracts ∧
      (∀ path, Text.endsWith ".go" path = true →
        lookup? t path = (fileAt? extracts path).map fun f => FileTree.textEntry f.text) ∧
      (∀ path f, fileAt? extracts path = some f →
        (path = sharedPath ∨ ∃ e, kindAt? extracts path = some e) ∧
          ∀ d ∈ f.types, ∀ name ∈ d.body.fieldNames, IsExported name) ∧
      (∀ path e, kindAt? extracts path = some e →
        ∃ f, fileAt? extracts path = some f ∧ (f.ValidNames u ↔ IsIdentifier u e.version ∧
          ∀ component ∈ Dict.keys e.document.schemas, Vocabulary.isShared component = false →
            IsExported (shortName component))) ∧
      (kindAt? extracts sharedPath = none →
        ∃ f, fileAt? extracts sharedPath = some f ∧ (f.ValidNames u ↔
          ∀ e ∈ extracts, ∀ component ∈ Dict.keys e.document.schemas,
            Vocabulary.isShared component = true → IsExported (shortName component)))) ∧
    ∀ before last : String, '.' ∉ last.toList → HasLetters last →
      (IsExported (shortName (before ++ "." ++ last)) ↔
        shortName (before ++ "." ++ last) = exported last) ∧
      (shortName (before ++ "." ++ last) = exported last ↔
        ¬(HasLetters before ∧ LeadsWithDigit last)) := by
  obtain ⟨extracts, hd, hlookup, hfiles, _⟩ := exists_files_of_generate h
  have hlacks : ∀ e ∈ extracts, ∀ c ∈ e.document.schemas,
      c.2.Throughout (Keywords.Lacks goKeys) :=
    fun e he c hc => Collect.throughout_of_documents hd hlack (by decide) he hc
  refine ⟨⟨extracts, hd, hlookup, fun path f hf => ⟨fileAt?_cases hf, ?_⟩, ?_, ?_⟩, ?_⟩
  · obtain ⟨d, _, hemit⟩ := Option.bind_eq_some_iff.mp hf
    exact isExported_fieldNames (Outcome.toOption_eq_some.mp hemit)
  · exact fun path e he => kindFile_validNames_iff u hlacks he hfiles
  · exact fun hfree => sharedFile_validNames_iff u hlacks hfree hfiles
  · exact fun before last hdot hlast =>
      ⟨isExported_shortName_iff hdot hlast, shortName_eq_exported_iff hdot hlast⟩

end

/-- The letters and digits of the first 128 characters. -/
def asciiAlphabet : Alphabet where
  isLetter := Char.isAlpha
  isDigit := Char.isDigit
  isLetter_ascii _ _ := rfl
  isDigit_ascii _ _ := rfl

theorem generate_validNames_iff_nestedAndKind :
    ∃ t extracts, generate nestedAndKind [] = .ok (some t) ∧
      Collect.SchemasLack goKeys nestedAndKind [] ∧
      Collect.documents nestedAndKind [] = .ok extracts ∧
        ∀ path e, kindAt? extracts path = some e → ∃ f, fileAt? extracts path = some f ∧
          (f.ValidNames asciiAlphabet ↔ IsIdentifier asciiAlphabet e.version ∧
            ∀ component ∈ Dict.keys e.document.schemas, Vocabulary.isShared component = false →
              IsExported (shortName component)) := by
  obtain ⟨t, ht⟩ := exists_generate_nestedAndKind
  obtain ⟨⟨extracts, hd, _, _, hkinds, _⟩, _⟩ :=
    generate_validNames_iff asciiAlphabet ht nestedAndKind_lacks
  exact ⟨t, extracts, ht, nestedAndKind_lacks, hd, hkinds⟩

/-- A kind whose name begins with a digit. -/
def digitKind : FileTree :=
  .ofEntries [("a.yaml", Collect.definitionFile "a" "3d" "\x7b\x7d")]

theorem holdTexts_digitKind :
    Collect.HoldTexts digitKind [] [("a.yaml", Collect.definitionText "a" "3d" "\x7b\x7d")] :=
  Collect.holdTexts_ofEntries (.refl _) (by decide) (by decide) (by decide)

theorem digitKind_lacks : Collect.SchemasLack goKeys digitKind [] := by
  refine holdTexts_digitKind.schemasLack ?_
  simp only [Collect.charsOf, List.map_cons, List.map_nil, Collect.toList_definitionText,
    String.reduceToList]
  decide +kernel

theorem digitKind_evaluated :
    haveType "3d" ["models/a/v/3d.go"] (Collect.documents digitKind []) = true := by
  apply haveType_of_own
  rw [holdTexts_digitKind.resources_eq]
  simp only [Collect.charsOf, List.map_cons, List.map_nil, Collect.toList_definitionText,
    String.reduceToList]
  decide +kernel

/-- The short name of a component keeps its digit in front, and a type is declared under it. -/
theorem digitKind_not_validNames :
    (∃ t extracts, generate digitKind [] = .ok (some t) ∧
      Collect.SchemasLack goKeys digitKind [] ∧
      Collect.documents digitKind [] = .ok extracts ∧
        ∃ f, fileAt? extracts "models/a/v/3d.go" = some f ∧ ∀ u, ¬f.ValidNames u) ∧
    HasLetters "3d" ∧ shortName "a.v.3d" ≠ exported "3d" := by
  obtain ⟨extracts, hd, hne, hwritable, hname⟩ := haveType_iff.mp digitKind_evaluated
  obtain ⟨t, ht⟩ := exists_generate hd hne hwritable
  obtain ⟨_, hd', hperm⟩ := exists_fileTypes_perm ht
  cases hd.symm.trans hd'
  refine ⟨⟨t, extracts, ht, digitKind_lacks, hd, ?_⟩, by decide, by decide⟩
  have hmem := (hperm _).mem_iff.mpr (hname _ (List.mem_singleton_self _))
  unfold fileTypes at hmem
  cases hf : fileAt? extracts "models/a/v/3d.go" with
  | none => simp [hf] at hmem
  | some f =>
    rw [hf] at hmem
    obtain ⟨d, hdecl, hd3⟩ := List.mem_map.mp hmem
    refine ⟨f, rfl, fun u hvalid => ?_⟩
    have hexported := hvalid.types d hdecl
    rw [hd3] at hexported
    exact absurd hexported (by decide)

end ResourceModels.Go
