import Mathlib.Tactic.ByContra
import Mathlib.Tactic.Tauto
import ResourceModels.Derive

/-!
# Versions of derived resources

A derived resource has the versions of its definition, in order; one is stored if it may be referred
to, whether or not it is served. So it has a single stored version only where the definition has a
single version that may be referred to.
-/

namespace ResourceModels

/-- The version at a position is served, and it is the only one that is stored. -/
def ResourceDefinition.StoresOnlyAt (r : ResourceDefinition) (position : Nat) : Prop :=
  (∃ v, r.versions[position]? = some v ∧ v.served = true ∧ v.storage = true) ∧
    ∀ i v, r.versions[i]? = some v → v.storage = true → i = position

namespace CompositeDefinition

def Derived.resources (d : Derived) : List ResourceDefinition := d.composite :: d.claim.toList

theorem only_position_iff {α : Type} {p : α → Prop} {before after : List α} {v : α} :
    (∀ i w, (before ++ v :: after)[i]? = some w → p w → i = before.length) ↔
      ∀ w ∈ before ++ after, ¬p w := by
  constructor
  · intro h w hw hp
    rcases List.mem_append.mp hw with hw | hw
    · obtain ⟨i, hi, rfl⟩ := List.getElem_of_mem hw
      have hpos := h i before[i] (by simp [List.getElem?_append_left hi]) hp
      omega
    · obtain ⟨i, hi, rfl⟩ := List.getElem_of_mem hw
      have hpos := h (before.length + (i + 1)) after[i] (by simp [hi]) hp
      omega
  · intro h i w hw hp
    by_contra hne
    refine h w ?_ hp
    rcases Nat.lt_or_gt_of_ne hne with hlt | hgt
    · rw [List.getElem?_append_left hlt] at hw
      exact List.mem_append_left _ (List.mem_of_getElem? hw)
    · obtain ⟨k, rfl⟩ := Nat.exists_eq_add_of_lt hgt
      have hk : before.length + k + 1 - before.length = k + 1 := by omega
      rw [List.getElem?_append_right (by omega), hk, List.getElem?_cons_succ] at hw
      exact List.mem_append_right _ (List.mem_of_getElem? hw)

variable {x : CompositeDefinition} {d : Derived}

theorem derive_eq_ok : x.derive = .ok d ↔
    x.group ≠ "" ∧ x.names.kind ≠ "" ∧ (∃ v, x.referenceableVersion? = some v) ∧
      d = ⟨x.deriveAs composite x.names, x.claimNames.map (x.deriveAs claim)⟩ := by
  unfold derive
  by_cases hnamed : x.group = "" ∨ x.names.kind = ""
  · simp only [if_pos hnamed, reduceCtorEq, false_iff]
    tauto
  · obtain ⟨hgroup, hkind⟩ := not_or.mp hnamed
    rw [if_neg hnamed]
    cases x.referenceableVersion? with
    | none => simp
    | some v => simp [hgroup, hkind, eq_comm]

theorem exists_role_deriveAs (h : x.derive = .ok d) {r : ResourceDefinition}
    (hr : r ∈ d.resources) :
    ∃ role names, (role = composite ∨ role = claim) ∧ r = x.deriveAs role names := by
  obtain ⟨_, _, _, rfl⟩ := derive_eq_ok.mp h
  rcases List.mem_cons.mp hr with rfl | hr
  · exact ⟨composite, _, .inl rfl, rfl⟩
  · obtain ⟨names, _, rfl⟩ := Option.map_eq_some_iff.mp (Option.mem_toList.mp hr)
    exact ⟨claim, _, .inr rfl, rfl⟩

theorem exists_deriveAs (h : x.derive = .ok d) {r : ResourceDefinition} (hr : r ∈ d.resources) :
    ∃ role names, r = x.deriveAs role names := by
  obtain ⟨role, names, _, hderived⟩ := exists_role_deriveAs h hr
  exact ⟨role, names, hderived⟩

theorem getElem?_versions_deriveAs (role : Role) (n : Names) (i : Nat) :
    (x.deriveAs role n).versions[i]? = (x.versions[i]?).map (deriveVersion role) :=
  List.getElem?_map

/-- Where a version is served and may be referred to, it is the only one that is stored exactly when
no other one may be referred to. -/
theorem storesOnlyAt_deriveAs_iff {before after : List CompositeVersion} {v : CompositeVersion}
    (hx : x.versions = before ++ v :: after) (hserved : v.served = true)
    (hreferenceable : v.referenceable = true) (role : Role) (n : Names) :
    (x.deriveAs role n).StoresOnlyAt before.length ↔
      ∀ w ∈ before ++ after, ¬w.referenceable = true := by
  have hat : ∃ stored, (x.deriveAs role n).versions[before.length]? = some stored ∧
      stored.served = true ∧ stored.storage = true := by
    refine ⟨deriveVersion role v, ?_, hserved, hreferenceable⟩
    rw [getElem?_versions_deriveAs, hx]
    simp
  have honly : (∀ i w, (x.deriveAs role n).versions[i]? = some w → w.storage = true →
      i = before.length) ↔ ∀ i w, (before ++ v :: after)[i]? = some w →
        w.referenceable = true → i = before.length := by
    simp only [getElem?_versions_deriveAs, hx, Option.map_eq_some_iff, forall_exists_index, and_imp,
      forall_apply_eq_imp_iff₂]
    rfl
  rw [ResourceDefinition.StoresOnlyAt, and_iff_right hat, honly, only_position_iff]

theorem derive_storesOnlyAt_iff (h : x.derive = .ok d) :
    ∃ before v after, x.versions = before ++ v :: after ∧ x.referenceableVersion? = some v ∧
      (∀ r ∈ d.resources, r.versions.map (·.served) = x.versions.map (·.served) ∧
        r.versions.map (·.storage) = x.versions.map (·.referenceable)) ∧
      ∀ r ∈ d.resources,
        (r.StoresOnlyAt before.length ↔ ∀ w ∈ before ++ after, ¬w.referenceable = true) := by
  obtain ⟨_, _, ⟨v, hv⟩, _⟩ := derive_eq_ok.mp h
  obtain ⟨hboth, before, after, hx, _⟩ := List.find?_eq_some_iff_append.mp hv
  obtain ⟨hserved, hreferenceable⟩ := Bool.and_eq_true_iff.mp hboth
  refine ⟨before, v, after, hx, hv, ?_, ?_⟩
  · intro r hr
    obtain ⟨role, names, rfl⟩ := exists_deriveAs h hr
    simp [deriveAs, deriveVersion, Function.comp_def]
  · intro r hr
    obtain ⟨role, names, rfl⟩ := exists_deriveAs h hr
    exact storesOnlyAt_deriveAs_iff hx hserved hreferenceable role names

/-- Two versions are served and may be referred to. -/
def twoReferenceable : CompositeDefinition :=
  { group := "a.b"
    names := { kind := "XK", plural := "xks" }
    claimNames := some { kind := "K", plural := "ks" }
    versions :=
      [{ name := "v1", served := true, referenceable := true },
        { name := "v2", served := true, referenceable := true }] }

theorem exists_derive_twoReferenceable : ∃ d, twoReferenceable.derive = .ok d :=
  ⟨_, derive_eq_ok.mpr ⟨by decide, by decide, ⟨_, rfl⟩, rfl⟩⟩

theorem twoReferenceable_storesOnlyAt_iff :
    ∃ d, twoReferenceable.derive = .ok d ∧
      ∃ before v after, twoReferenceable.versions = before ++ v :: after ∧
        twoReferenceable.referenceableVersion? = some v ∧
        ∀ r ∈ d.resources,
          (r.StoresOnlyAt before.length ↔ ∀ w ∈ before ++ after, ¬w.referenceable = true) := by
  obtain ⟨d, hd⟩ := exists_derive_twoReferenceable
  obtain ⟨before, v, after, hx, hv, _, hiff⟩ := derive_storesOnlyAt_iff hd
  exact ⟨d, hd, before, v, after, hx, hv, hiff⟩

/-- Neither of the two derived resources has a single version that is stored. -/
theorem twoReferenceable_storedTwice :
    ∃ d, twoReferenceable.derive = .ok d ∧ d.resources.length = 2 ∧
      ∀ r ∈ d.resources, ¬∃ position, r.StoresOnlyAt position := by
  obtain ⟨d, hd⟩ := exists_derive_twoReferenceable
  refine ⟨d, hd, ?_, ?_⟩
  · obtain ⟨_, _, _, rfl⟩ := derive_eq_ok.mp hd
    rfl
  · rintro r hr ⟨position, _, honly⟩
    obtain ⟨role, names, rfl⟩ := exists_deriveAs hd hr
    have hfirst : 0 = position := honly 0 _ rfl rfl
    have hsecond : 1 = position := honly 1 _ rfl rfl
    omega

end CompositeDefinition

end ResourceModels
