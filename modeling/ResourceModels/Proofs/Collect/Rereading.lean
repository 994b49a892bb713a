import ResourceModels.Proofs.Collect
import ResourceModels.Proofs.Definition.Reading

/-!
# Staged definitions that are read again

A file that is staged as it is defines what it was read as. A definition that is written anew, from
a file with several documents or from a composite definition, is read again as itself but for what
is null in it.
-/

namespace ResourceModels

open Yaml (Value)

/-- The text that is written of a definition is parsed as the value that was written. -/
def ResourceDefinition.PrintsBack (r : ResourceDefinition) : Prop :=
  Value.stream r.toYaml = [.ok (.ofJson r.toJson)]

/-- Whether documents are one document of the value of a JSON value. -/
def Yaml.Value.isOnly (j : Json) : List (Except Yaml.ReadError Value) → Bool
  | [.ok v] => Value.isOf j v
  | _ => false

theorem Yaml.Value.isOnly_iff {j : Json} {documents : List (Except Yaml.ReadError Value)} :
    isOnly j documents = true ↔ documents = [.ok (.ofJson j)] := by
  rcases documents with _ | ⟨_ | v, _ | _⟩ <;> simp [isOnly, isOf_iff]

instance (r : ResourceDefinition) : Decidable r.PrintsBack :=
  decidable_of_iff _ Value.isOnly_iff

theorem Manifest.ofDocument_of_ofValue {v : Value} {m : Manifest} (hnull : v.untag ≠ .null)
    (h : ofValue v = .ok m) : ofDocument (.ok v) = .ok (some m) := by
  simp only [ofDocument, h]

theorem Manifest.classify_toYaml {r : ResourceDefinition} (h : r.PrintsBack)
    (hr : (Manifest.resource r).InOrder) (path : String) :
    classify path (Text.encode r.toYaml) = .ok [.resource r.settled] := by
  have hdocument : ofDocument (.ok (.ofJson r.toJson)) = .ok (some (.resource r.settled)) :=
    ofDocument_of_ofValue (fun hnull => by cases hnull) (ofValue_toJson hr.1 hr.2)
  rw [classify, documents, Text.decode?_encode]
  dsimp only
  rw [h, List.mapM_cons, hdocument]
  rfl

namespace Collect

/-- Whether what was staged in all places is the definition that goes with it. -/
def ReadAgain (staged : List Staged) : Prop :=
  ∀ s ∈ staged, Manifest.classify s.path s.contents = .ok [.resource s.definition]

/-- How a resource is staged: as the one thing that its file defines, with the contents of the file,
or written anew under another path. -/
inductive Origin (s : Staged) : Prop
  | verbatim (path : s.path = s.source)
      (defines : Manifest.classify s.path s.contents = .ok [.resource s.definition])
  | anew (path : s.path ≠ s.source) (order : (Manifest.resource s.definition).InOrder)
      (contents : s.contents = Text.encode s.definition.toYaml)

theorem append_ne {file base tail : String} (hbase : file.length ≤ base.length)
    (htail : 0 < tail.length) : base ++ tail ≠ file := by
  intro heq
  have hlength := congrArg String.length heq
  rw [String.length_append] at hlength
  omega

theorem length_le_numbered (file : String) (index : Nat) :
    file.length ≤ (file ++ "-" ++ toString index).length := by
  rw [String.length_append, String.length_append]
  omega

theorem origin_of_stage {file : String} {contents : ByteArray} {alone : Bool} {index : Nat}
    {m : Manifest} {own : List Staged} (h : stage file contents alone index m = .ok own)
    (hm : m.InOrder) (halone : alone = true → Manifest.classify file contents = .ok [m])
    {s : Staged} (hs : s ∈ own) : Origin s := by
  cases m with
  | other kind =>
    cases h
    cases hs
  | resource r =>
    cases h
    rw [List.mem_singleton.mp hs]
    cases alone with
    | true => exact .verbatim rfl (halone rfl)
    | false => exact .anew (append_ne (length_le_numbered file index) (by decide)) hm rfl
  | composite x =>
    obtain ⟨derived, hderived, rfl⟩ := Outcome.bind_pure_eq_ok.mp h
    have hresources : ∀ r ∈ derived.resources, (Manifest.resource r).InOrder :=
      fun r hr => CompositeDefinition.inOrder_of_mem_resources hderived hm hr
    have hbase : file.length ≤
        (if alone then file else file ++ "-" ++ toString index).length := by
      cases alone with
      | true => exact le_rfl
      | false => exact length_le_numbered file index
    rcases List.mem_cons.mp hs with rfl | hs
    · exact .anew (append_ne hbase (by decide)) (hresources _ List.mem_cons_self) rfl
    · obtain ⟨r, hr, rfl⟩ := Option.map_eq_some_iff.mp (Option.mem_toList.mp hs)
      have hmem : r ∈ derived.resources := List.mem_cons_of_mem _ (Option.mem_toList.mpr hr)
      exact .anew (append_ne hbase (by decide)) (hresources r hmem) rfl

theorem origin_of_stageFile {file : String} {contents : ByteArray} {own : List Staged}
    (h : stageFile file contents = .ok own) {s : Staged} (hs : s ∈ own) : Origin s := by
  obtain ⟨manifests, hmanifests, h⟩ := Outcome.bind_eq_ok.mp h
  obtain ⟨pieces, hpieces, rfl⟩ := Outcome.bind_pure_eq_ok.mp h
  obtain ⟨piece, hpiece, hs⟩ := List.mem_flatten.mp hs
  obtain ⟨⟨m, index⟩, hm, hstage⟩ := Outcome.exists_of_mem_mapM hpieces hpiece
  have hmem : m ∈ manifests := (List.mem_zipIdx' hm).2 ▸ List.getElem_mem _
  refine origin_of_stage hstage (Manifest.inOrder_of_classify hmanifests m hmem) ?_ hs
  intro halone
  obtain ⟨only, rfl⟩ := List.length_eq_one_iff.mp (beq_iff_eq.mp halone)
  rw [List.mem_singleton.mp hmem, hmanifests]

section

variable {σ : Type} [FileStore σ] {files : σ} {exclude : List String} {staged : List Staged}

theorem origin_of_resources (h : resources files exclude = .ok staged) {s : Staged}
    (hs : s ∈ staged) : Origin s := by
  obtain ⟨parts, hparts, rfl⟩ := Outcome.bind_pure_eq_ok.mp h
  obtain ⟨own, hown, hs⟩ := List.mem_flatten.mp hs
  obtain ⟨file, -, hfile⟩ := Outcome.exists_of_mem_mapM hparts hown
  split at hfile
  · exact origin_of_stageFile hfile hs
  · cases hfile

/-- What is read again of a staged file that is written back as it was printed. -/
theorem classify_staged (h : resources files exclude = .ok staged) {s : Staged} (hs : s ∈ staged)
    (hprints : s.path ≠ s.source → s.definition.PrintsBack) :
    Manifest.classify s.path s.contents =
      .ok [.resource (if s.path = s.source then s.definition else s.definition.settled)] := by
  cases origin_of_resources h hs with
  | verbatim hpath hdefines => rw [if_pos hpath, hdefines]
  | anew hpath horder hcontents =>
    rw [if_neg hpath, hcontents, Manifest.classify_toYaml (hprints hpath) horder]

/-- Every staged file defines one resource, and this is the resource that goes with it exactly where
nothing was null in what is written anew. -/
theorem readAgain_iff (h : resources files exclude = .ok staged)
    (hprints : ∀ s ∈ staged, s.path ≠ s.source → s.definition.PrintsBack) :
    (∀ s ∈ staged, Manifest.classify s.path s.contents =
      .ok [.resource (if s.path = s.source then s.definition else s.definition.settled)]) ∧
      (ReadAgain staged ↔ ∀ s ∈ staged, s.path ≠ s.source → s.definition.NullsAbsent) := by
  have hread := fun s hs => classify_staged h hs (hprints s hs)
  refine ⟨hread, forall_congr' fun s => forall_congr' fun hs => ?_⟩
  rw [hread s hs]
  simp only [Except.ok.injEq, List.cons.injEq, Manifest.resource.injEq, and_true]
  by_cases hpath : s.path = s.source
  · simp [hpath]
  · simp [hpath, ResourceDefinition.settled_eq_self_iff]

end

/-- A file with two documents, in the first of which a default is not a number. -/
def notANumber : FileTree :=
  .ofEntries [("a.yaml", .file (Text.encode
    (definitionText "g" "K" "\x7bdefault: .nan\x7d" ++ "\n---\n\x7bkind: Other\x7d")))]

theorem holdTexts_notANumber : HoldTexts notANumber []
    [("a.yaml",
      definitionText "g" "K" "\x7bdefault: .nan\x7d" ++ "\n---\n\x7bkind: Other\x7d")] :=
  holdTexts_ofEntries (.refl _) (by decide) (by decide) (by decide)

/-- What is written of the first document. -/
def nullText : String :=
  "apiVersion: apiextensions.k8s.io/v1\n" ++ "kind: CustomResourceDefinition\n" ++
    "metadata:\n" ++ "  name: ''\n" ++ "spec:\n" ++ "  group: g\n" ++ "  names:\n" ++
      "    kind: K\n" ++ "    plural: ''\n" ++ "  scope: Namespaced\n" ++ "  versions:\n" ++
        "  - name: v\n" ++ "    served: true\n" ++ "    storage: false\n" ++ "    schema:\n" ++
          "      openAPIV3Schema:\n" ++ "        default: null\n"

/-- Whether the schema of a version has a default that is null. -/
def defaultsToNull (r : ResourceDefinition) : Bool :=
  r.versions.any fun v => (v.schema?.bind (·.keywords.default?)).any (·.present?.isNone)

theorem not_nullsAbsent_of_defaultsToNull {r : ResourceDefinition}
    (h : defaultsToNull r = true) : ¬r.NullsAbsent := by
  intro habsent
  obtain ⟨v, hv, hdefault⟩ := List.any_eq_true.mp h
  obtain ⟨j, hj, hnull⟩ := (Option.any_eq_true _ _).mp hdefault
  obtain ⟨root, hroot, hj⟩ := Option.bind_eq_some_iff.mp hj
  have hpresent : j.present? ≠ none := by
    rw [Json.present?_eq_some]
    · exact Option.some_ne_none j
    · rintro rfl
      exact ((habsent v hv).defaults root hroot).keywords hj
  exact hpresent (Option.isNone_iff_eq_none.mp hnull)

/-- Whether one definition is staged, under a path of its own, with a default that is null, and the
text that is written of it has the given characters, which are read as what is written. -/
def stagesNull (text : String) (chars : List Char) : Except DefinitionError (List Staged) → Bool
  | .ok [s] => decide (s.path ≠ s.source) && defaultsToNull s.definition &&
      (decide (s.definition.toYaml = text) &&
        Value.isOnly s.definition.toJson (Manifest.charDocuments chars))
  | _ => false

theorem exists_of_stagesNull {text : String} {result : Except DefinitionError (List Staged)}
    (h : stagesNull text text.toList result = true) :
    ∃ s, result = .ok [s] ∧ s.path ≠ s.source ∧ s.definition.PrintsBack ∧
      ¬s.definition.NullsAbsent := by
  rcases result with _ | (_ | ⟨s, _ | _⟩)
  · cases h
  · cases h
  · simp only [stagesNull, Bool.and_eq_true, decide_eq_true_eq] at h
    obtain ⟨⟨hpath, hnull⟩, htext, honly⟩ := h
    refine ⟨s, rfl, hpath, ?_, not_nullsAbsent_of_defaultsToNull hnull⟩
    rw [ResourceDefinition.PrintsBack, htext]
    exact Value.isOnly_iff.mp honly
  · cases h

theorem notANumber_evaluated :
    stagesNull nullText nullText.toList (resources notANumber []) = true := by
  rw [holdTexts_notANumber.resources_eq]
  unfold nullText
  simp only [charsOf, List.map_cons, List.map_nil, String.toList_append, toList_definitionText,
    String.reduceToList]
  decide +kernel

theorem notANumber_readAgain_iff :
    ∃ staged, resources notANumber [] = .ok staged ∧
      (∀ s ∈ staged, s.path ≠ s.source → s.definition.PrintsBack) ∧
        (ReadAgain staged ↔ ∀ s ∈ staged, s.path ≠ s.source → s.definition.NullsAbsent) := by
  obtain ⟨s, hs, _, hprints, _⟩ := exists_of_stagesNull notANumber_evaluated
  have hall : ∀ t ∈ [s], t.path ≠ t.source → t.definition.PrintsBack := by
    intro t ht _
    rw [List.mem_singleton.mp ht]
    exact hprints
  exact ⟨[s], hs, hall, (readAgain_iff hs hall).2⟩

/-- A default that is not a number is written as null, and it is missing when it is read again. -/
theorem notANumber_not_readAgain :
    ∃ staged, resources notANumber [] = .ok staged ∧
      (∀ s ∈ staged, s.definition.PrintsBack) ∧ ¬ReadAgain staged := by
  obtain ⟨s, hs, hpath, hprints, hnull⟩ := exists_of_stagesNull notANumber_evaluated
  refine ⟨[s], hs, ?_, fun hread => ?_⟩
  · intro t ht
    rw [List.mem_singleton.mp ht]
    exact hprints
  · have hown := hread s List.mem_cons_self
    rw [classify_staged hs List.mem_cons_self fun _ => hprints, if_neg hpath] at hown
    simp only [Except.ok.injEq, List.cons.injEq, Manifest.resource.injEq, and_true] at hown
    exact hnull (ResourceDefinition.settled_eq_self_iff.mp hown)

end Collect

end ResourceModels
