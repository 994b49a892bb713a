import ResourceModels.Proofs.Collect
import ResourceModels.Proofs.Derive

/-!
# Schemas of a tree

The schemas that are collected from a tree are those that its definitions give, with parts added
that have no extensions but the identity of a kind. So an extension that no definition uses is in
none of the collected documents.
-/

namespace ResourceModels

open Schema (Throughout)

def Keywords.Lacks (keys : List String) (k : Keywords) : Prop :=
  ∀ key ∈ keys, k.extension? key = none

instance (keys : List String) : DecidablePred (Keywords.Lacks keys) := fun k =>
  inferInstanceAs (Decidable (∀ key ∈ keys, k.extension? key = none))

theorem Keywords.Lacks.mono {keys others : List String} {k : Keywords} (h : k.Lacks others)
    (hsub : keys ⊆ others) : k.Lacks keys := fun key hkey => h key (hsub hkey)

/-- The schemas of the versions that a manifest defines. -/
def Manifest.schemas : Manifest → List Schema
  | .resource r => r.versions.filterMap (·.schema?)
  | .composite x => x.versions.filterMap (·.schema?)
  | .other _ => []

section

variable {P : Keywords → Prop} {s : Schema}

theorem Schema.Throughout.withMissing (h : s.Throughout P) {fields : Dict Schema}
    (hfields : ∀ field ∈ fields, field.2.Throughout P) : (s.withMissing fields).Throughout P := by
  refine Schema.throughout_iff.mpr ⟨h.keywords, fun part hpart => ?_⟩
  rcases Schema.mem_parts.mp hpart with hpart | hpart
  · obtain ⟨p, hp, rfl⟩ := List.mem_map.mp hpart
    rcases Dict.mem_insertMissing hp with hp | hp
    · exact h.part (Schema.mem_parts.mpr (.inl (List.mem_map_of_mem hp)))
    · exact hfields p hp
  · exact h.part (Schema.mem_parts.mpr (.inr hpart))

theorem Schema.Throughout.withinProperty (h : s.Throughout P)
    (hobject : P (Schema.typed "object").keywords) (name : String) {fields : Dict Schema}
    (hfields : ∀ field ∈ fields, field.2.Throughout P) :
    (s.withinProperty name fields).Throughout P := by
  refine h.withProperty name (Throughout.withMissing ?_ hfields)
  cases hget : Dict.get? s.properties name with
  | none => exact Schema.throughout_of_parts_nil rfl hobject
  | some p =>
    have hmem := List.mem_map_of_mem (f := fun property : String × Schema => property.2)
      (Dict.mem_of_get? hget)
    exact h.part (Schema.mem_parts.mpr (.inl hmem))

end

namespace CompositeDefinition

theorem machinery_plain :
    ∀ fields ∈ [composite.fields, claim.fields, Machinery.statusFields], ∀ field ∈ fields,
      field.2.Throughout fun k => k.extensions.isEmpty = true := by
  decide +kernel

/-- The schema of a derived version has no extensions but those of its definition. -/
theorem throughout_deriveVersion {role : Role} (hrole : role = composite ∨ role = claim)
    {keys : List String} {v : CompositeVersion}
    (h : ∀ s ∈ v.schema?, s.Throughout (Keywords.Lacks keys)) :
    ∀ root ∈ (deriveVersion role v).schema?, root.Throughout (Keywords.Lacks keys) := by
  have hplain : ∀ k : Keywords, k.extensions.isEmpty = true → k.Lacks keys := by
    intro k hk key _
    rw [Keywords.extension?, List.isEmpty_iff.mp hk]
    rfl
  have hfields : ∀ fields ∈ [composite.fields, claim.fields, Machinery.statusFields],
      ∀ field ∈ fields, field.2.Throughout (Keywords.Lacks keys) :=
    fun fields hfields field hfield => (machinery_plain fields hfields field hfield).imp hplain
  have hrolefields : ∀ field ∈ role.fields, field.2.Throughout (Keywords.Lacks keys) := by
    rcases hrole with rfl | rfl
    · exact hfields composite.fields (by simp)
    · exact hfields claim.fields (by simp)
  have hobject : (Schema.typed "object").keywords.Lacks keys := hplain _ rfl
  have hown : (v.schema?.getD (Schema.typed "object")).Throughout (Keywords.Lacks keys) := by
    cases hs : v.schema? with
    | none => exact Schema.throughout_of_parts_nil rfl hobject
    | some s => exact h s hs
  have htyped : (v.schema?.getD (Schema.typed "object")).asObject.Throughout (Keywords.Lacks keys) :=
    hown.withKeywords hown.keywords
  have hspec := htyped.withinProperty hobject "spec" hrolefields
  have hstatus := hspec.withinProperty hobject "status" (hfields Machinery.statusFields (by simp))
  rintro _ ⟨⟩
  exact hstatus

theorem throughout_of_mem_resources {x : CompositeDefinition} {d : Derived} (hd : x.derive = .ok d)
    {keys : List String}
    (h : ∀ v ∈ x.versions, ∀ s ∈ v.schema?, s.Throughout (Keywords.Lacks keys))
    {r : ResourceDefinition} (hr : r ∈ d.resources) :
    ∀ v ∈ r.versions, ∀ s ∈ v.schema?, s.Throughout (Keywords.Lacks keys) := by
  obtain ⟨role, names, hrole, rfl⟩ := exists_role_deriveAs hd hr
  intro v hv
  obtain ⟨own, hown, rfl⟩ := List.mem_map.mp hv
  exact throughout_deriveVersion hrole (h own hown)

end CompositeDefinition

namespace Collect

variable {σ : Type} [FileStore σ]

/-- No schema of a definition among the files uses one of the extensions. -/
def SchemasLack (keys : List String) (files : σ) (exclude : List String) : Prop :=
  ∀ file ∈ sources files exclude, ∀ contents ∈ (FileStore.read files file).toOption,
    ∀ manifests ∈ (Manifest.classify file contents).toOption, ∀ m ∈ manifests, ∀ s ∈ m.schemas,
      s.Throughout (Keywords.Lacks keys)

instance (keys : List String) (files : σ) (exclude : List String) :
    Decidable (SchemasLack keys files exclude) :=
  inferInstanceAs (Decidable (∀ file ∈ sources files exclude,
    ∀ contents ∈ (FileStore.read files file).toOption,
      ∀ manifests ∈ (Manifest.classify file contents).toOption, ∀ m ∈ manifests, ∀ s ∈ m.schemas,
        s.Throughout (Keywords.Lacks keys)))

variable {files : σ} {exclude keys : List String}

theorem SchemasLack.mono {others : List String} (h : SchemasLack others files exclude)
    (hsub : keys ⊆ others) : SchemasLack keys files exclude := by
  intro file hfile contents hcontents manifests hmanifests m hm s hs
  exact (h file hfile contents hcontents manifests hmanifests m hm s hs).imp fun _ hk =>
    hk.mono hsub

theorem HoldTexts.schemasLack {texts : List (String × String)} (h : HoldTexts files exclude texts)
    (hlack : ∀ file ∈ charsOf texts, ∀ manifests ∈ (Manifest.ofChars file.1 file.2).toOption,
      ∀ m ∈ manifests, ∀ s ∈ m.schemas, s.Throughout (Keywords.Lacks keys)) :
    SchemasLack keys files exclude := by
  intro file hfile contents hcontents manifests hmanifests
  rw [h.sources] at hfile
  obtain ⟨text, ht, rfl⟩ := List.mem_map.mp hfile
  rw [h.read text ht] at hcontents
  cases hcontents
  rw [Manifest.classify_encode] at hmanifests
  exact hlack (text.1, text.2.toList) (List.mem_map_of_mem ht) manifests hmanifests

theorem throughout_of_stage {file : String} {contents : ByteArray} {alone : Bool} {index : Nat}
    {m : Manifest} {own : List Staged} (h : stage file contents alone index m = .ok own)
    (hm : ∀ s ∈ m.schemas, s.Throughout (Keywords.Lacks keys)) {s : Staged} (hs : s ∈ own) :
    ∀ v ∈ s.definition.versions, ∀ root ∈ v.schema?, root.Throughout (Keywords.Lacks keys) := by
  cases m with
  | other kind =>
    cases h
    cases hs
  | resource r =>
    cases h
    intro v hv root hroot
    have hdefinition : s.definition = r := by
      rw [List.mem_singleton.mp hs]
      split <;> rfl
    rw [hdefinition] at hv
    exact hm root (List.mem_filterMap.mpr ⟨v, hv, hroot⟩)
  | composite x =>
    simp only [stage, Outcome.bind_eq_ok, Outcome.pure_eq_ok] at h
    obtain ⟨derived, hderived, rfl⟩ := h
    refine CompositeDefinition.throughout_of_mem_resources hderived (fun v hv root hroot => ?_) ?_
    · exact hm root (List.mem_filterMap.mpr ⟨v, hv, hroot⟩)
    · rcases List.mem_cons.mp hs with rfl | hs
      · exact List.mem_cons_self
      · obtain ⟨r, hr, rfl⟩ := Option.map_eq_some_iff.mp (Option.mem_toList.mp hs)
        exact List.mem_cons_of_mem _ (Option.mem_toList.mpr hr)

theorem throughout_of_resources {staged : List Staged} (h : resources files exclude = .ok staged)
    (hlack : SchemasLack keys files exclude) {s : Staged} (hs : s ∈ staged) :
    ∀ v ∈ s.definition.versions, ∀ root ∈ v.schema?, root.Throughout (Keywords.Lacks keys) := by
  simp only [resources, Outcome.bind_eq_ok, Outcome.pure_eq_ok] at h
  obtain ⟨parts, hparts, rfl⟩ := h
  obtain ⟨own, hown, hs⟩ := List.mem_flatten.mp hs
  obtain ⟨file, hfile, hstaged⟩ := Outcome.exists_of_mem_mapM hparts hown
  split at hstaged
  · next contents hread =>
    simp only [stageFile, Outcome.bind_eq_ok, Outcome.pure_eq_ok] at hstaged
    obtain ⟨manifests, hmanifests, pieces, hpieces, rfl⟩ := hstaged
    obtain ⟨piece, hpiece, hs⟩ := List.mem_flatten.mp hs
    obtain ⟨m, hm, hstage⟩ := Outcome.exists_of_mem_mapM hpieces hpiece
    have hmem : m.1 ∈ manifests := (List.mem_zipIdx' hm).2 ▸ List.getElem_mem _
    have hschemas := hlack file hfile contents (Outcome.toOption_eq_some.mpr hread) manifests
      (Outcome.toOption_eq_some.mpr hmanifests) m.1 hmem
    exact throughout_of_stage hstage hschemas hs
  · cases hstaged

/-- An extension that no definition uses is in none of the documents. -/
theorem throughout_of_documents {extracts : List Extract}
    (h : documents files exclude = .ok extracts) (hlack : SchemasLack keys files exclude)
    (hkeys : Extract.identityKey ∉ keys) {e : Extract} (he : e ∈ extracts) {c : String × Schema}
    (hc : c ∈ e.document.schemas) : c.2.Throughout (Keywords.Lacks keys) := by
  obtain ⟨staged, hstaged, s, hs, _, v, hv, root, hroot, rfl⟩ := exists_staged_of_mem h he
  have hown := throughout_of_resources hstaged hlack hs v (List.mem_of_mem_filter hv) root hroot
  refine fun n hn key hkey => ?_
  have hne : key ≠ Extract.identityKey := fun heq => hkeys (heq ▸ hkey)
  cases Extract.throughout_describe s.definition v.name root hc n hn with
  | own m hm _ hextension => rw [hextension key hne, hown m hm key hkey]
  | added _ hextension => exact hextension key hne

end Collect

end ResourceModels
