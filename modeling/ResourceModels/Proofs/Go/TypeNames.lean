import Mathlib
import ResourceModels.Proofs.Go.Hoisting
import ResourceModels.Proofs.Text.Cut

/-!
# Letters and digits

An exported name is made of letters and digits, so no type that is named after components, fields
and properties has a name with a dot in it. Only a schema that names its type itself can change
that.
-/

namespace ResourceModels.Go

def IsAlphanumeric (name : String) : Prop := ∀ c ∈ name.toList, c.isAlphanum = true

theorem IsAlphanumeric.dot_notMem {name : String} (h : IsAlphanumeric name) : '.' ∉ name.toList :=
  fun hdot => absurd (h '.' hdot) (by decide)

theorem IsAlphanumeric.append {name other : String} (h : IsAlphanumeric name)
    (h' : IsAlphanumeric other) : IsAlphanumeric (name ++ other) := by
  intro c hc
  rw [String.toList_append, List.mem_append] at hc
  exact hc.elim (h c) (h' c)

theorem isAlphanumeric_value : IsAlphanumeric "Value" :=
  List.all_eq_true.mp (by decide : "Value".toList.all Char.isAlphanum = true)

theorem isAlphanumeric_toString (n : Nat) : IsAlphanumeric (toString n) := by
  intro c hc
  simp [Char.isAlphanum, Text.isDigit_of_mem_toString hc]

theorem isUpper_toUpper {c : Char} (h : c.isLower = true) : c.toUpper.isUpper = true := by
  have hc : 'a'.val ≤ c.val ∧ c.val ≤ 'z'.val := by simpa [Char.isLower] using h
  have hlow : 97 ≤ c.val.toNat := hc.1
  have hhigh : c.val.toNat ≤ 122 := hc.2
  have hval : c.toUpper.val.toNat = c.val.toNat - 32 := by
    have hdiff : ('A'.val - 'a'.val).toNat = 4294967264 := by decide
    rw [Char.toUpper, dif_pos hc, UInt32.toNat_add]
    omega
  have hupper : 65 ≤ c.toUpper.val.toNat ∧ c.toUpper.val.toNat ≤ 90 := by omega
  exact decide_eq_true hupper

theorem toUpper_of_not_isLower {c : Char} (h : c.isLower = false) : c.toUpper = c := by
  rw [Char.toUpper, dif_neg]
  intro hc
  have hlower : c.isLower = true := by
    simp only [Char.isLower, Bool.and_eq_true, decide_eq_true_eq]
    exact hc
  rw [h] at hlower
  cases hlower

theorem isAlphanum_toUpper {c : Char} (h : c.isAlphanum = true) : c.toUpper.isAlphanum = true := by
  cases hc : c.isLower with
  | true => simp [Char.isAlphanum, Char.isAlpha, isUpper_toUpper hc]
  | false => rwa [toUpper_of_not_isLower hc]

theorem isAlphanum_of_mem_capitalized {part : List Char} (h : ∀ c ∈ part, c.isAlphanum = true) :
    ∀ c ∈ capitalized part, c.isAlphanum = true := by
  cases part with
  | nil => nofun
  | cons first rest =>
    intro c hc
    rcases List.mem_cons.mp hc with rfl | hc
    · exact isAlphanum_toUpper (h first List.mem_cons_self)
    · exact h c (List.mem_cons_of_mem _ hc)

/-- The letters and digits of a text, the first of each part as a capital. -/
def letters (text : List Char) : List Char :=
  (Text.splitList (fun c => !c.isAlphanum) text).flatMap capitalized

theorem isAlphanum_of_mem_letters (text : List Char) :
    ∀ c ∈ letters text, c.isAlphanum = true := by
  intro c hc
  obtain ⟨part, hpart, hc⟩ := List.mem_flatMap.mp hc
  refine isAlphanum_of_mem_capitalized (fun d hd => ?_) c hc
  simpa using Text.noMark_of_mem_splitList hpart d hd

/-- A name does not begin with a digit. -/
def lettered : List Char → List Char
  | [] => []
  | c :: rest => if c.isDigit then 'N' :: c :: rest else c :: rest

theorem exported_eq (name : String) :
    exported name = String.ofList (lettered (letters name.toList)) := by
  rw [exported, ← letters]
  cases letters name.toList with
  | nil => rfl
  | cons c rest =>
    dsimp only [lettered]
    split <;> rfl

theorem isAlphanumeric_exported (name : String) : IsAlphanumeric (exported name) := by
  intro c hc
  rw [exported_eq, String.toList_ofList] at hc
  have hletters := isAlphanum_of_mem_letters name.toList
  cases hl : letters name.toList with
  | nil => simp [hl, lettered] at hc
  | cons first rest =>
    rw [hl] at hc hletters
    rw [lettered] at hc
    split at hc
    · rcases List.mem_cons.mp hc with rfl | hc
      · decide
      · exact hletters c hc
    · exact hletters c hc

theorem isAlphanumeric_shortName (name : String) : IsAlphanumeric (shortName name) := by
  have hfull := isAlphanumeric_exported name
  unfold shortName
  dsimp only
  split
  · exact hfull
  · split
    · next rest hrest =>
      split
      · exact hfull
      · intro c hc
        refine hfull c ?_
        rw [Text.after?_eq_some.mp hrest, String.toList_append]
        exact List.mem_append_right _ hc
    · exact hfull

/-- A schema that names its type uses letters and digits only. -/
def NamedPlainly (k : Keywords) : Prop :=
  ∀ name, k.extensionText? typeNameKey = some name → IsAlphanumeric name

/-- A schema that names its type uses a name with a property. -/
def NamedBy (P : String → Prop) (k : Keywords) : Prop :=
  ∀ name, k.extensionText? typeNameKey = some name → P name

theorem NamedBy.congr {P : String → Prop} {k k' : Keywords} (h : NamedBy P k)
    (hname : k'.extension? typeNameKey = k.extension? typeNameKey) : NamedBy P k' := by
  intro name hk'
  rw [Keywords.extensionText?, hname] at hk'
  exact h name hk'

/-- A property of all short names that is not lost where types are named after them. -/
structure NamesTypes (P : String → Prop) : Prop where
  short : ∀ name, P (shortName name)
  value : ∀ {hint : String}, P hint → P (hint ++ "Value")
  unique : ∀ {base : String}, P base → ∀ taken, P (unique taken base)

namespace NamesTypes

variable {P : String → Prop} {components : Dict String}

theorem wantedName (hP : NamesTypes P) {k : Keywords} (hk : NamedBy P k) {hint : String}
    (h : P hint) (taken : List String) : P (Go.unique taken (Emission.wantedName k hint)) := by
  refine hP.unique ?_ taken
  unfold Emission.wantedName
  cases hname : k.extensionText? typeNameKey with
  | none => exact h
  | some name => exact hk name hname

theorem namesHold (hP : NamesTypes P) (components : Dict String) :
    Emission.NamesHold components (NamedBy P) P P where
  field _ _ _ _ := hP.short _
  value _ hhint := hP.value hhint
  name _ _ _ hk hhint := hP.wantedName hk hhint _

theorem componentNames (hP : NamesTypes P) {names : Dict String}
    (hnames : ∀ name ∈ Dict.values names, P name) {schemas : List (String × Schema)}
    (h : ∀ c ∈ schemas, c.2.Throughout (NamedBy P)) :
    ∀ name ∈ Dict.values (Emission.componentNames names schemas), P name := by
  induction schemas generalizing names with
  | nil => exact hnames
  | cons c rest ih =>
    refine ih (fun name hname => ?_) fun d hd => h d (List.mem_cons_of_mem _ hd)
    obtain ⟨pair, hpair, rfl⟩ := List.mem_map.mp hname
    rcases Dict.mem_insert hpair with rfl | hpair
    · exact hP.wantedName (h c List.mem_cons_self).keywords (hP.short _) _
    · exact hnames _ (List.mem_map_of_mem hpair)

theorem documentTypes (hP : NamesTypes P) {doc : OpenApi}
    (h : ∀ c ∈ doc.schemas, c.2.Throughout (NamedBy P)) :
    ∀ t ∈ Go.documentTypes doc, P t.name := by
  refine (hP.namesHold _).allTypes h (fun c hc => ?_) []
  obtain ⟨name, hname⟩ := Emission.exists_get?_componentNames (List.mem_map_of_mem hc)
  rw [Emission.declaredName, hname]
  exact hP.componentNames (by simp [Dict.values]) h name
    (List.mem_map_of_mem (f := fun c : String × String => c.2) (Dict.mem_of_get? hname))

theorem typeNames (hP : NamesTypes P) {doc : OpenApi} {package : String} {f : SourceFile}
    (h : emit doc package = .ok f) (hdoc : ∀ c ∈ doc.schemas, c.2.Throughout (NamedBy P)) :
    ∀ name ∈ f.typeNames, P name := by
  intro name hname
  obtain ⟨t, ht, rfl⟩ := List.mem_map.mp ((typeNames_perm_documentTypes h).mem_iff.mp hname)
  exact hP.documentTypes hdoc t ht

end NamesTypes

end ResourceModels.Go

/-!
## Identifiers of a Go file

The types of a file and the constants of its enumerations share one name space. Types never share a
name and neither do the constants of one enumeration. Nothing keeps a constant from taking the name
of a type, of its own one too, or of a constant of another enumeration: a file declares a name twice
exactly when that happens.
-/

namespace ResourceModels.Go

namespace SourceFile

def constantNames (f : SourceFile) : List String := f.types.flatMap (·.body.constantNames)

/-- All that a file declares for its package. -/
def identifiers (f : SourceFile) : List String := f.typeNames ++ f.constantNames

end SourceFile

/-- No constant has the name of a type or of a constant of another enumeration. -/
def ConstantsApart (types : List NamedType) : Prop :=
  ∀ t ∈ types, ∀ c ∈ t.constants, ∀ other ∈ types,
    c ≠ other.name ∧ (other.name ≠ t.name → c ∉ other.constants)

theorem constantsApart_congr {types types' : List NamedType} (h : types.Perm types') :
    ConstantsApart types ↔ ConstantsApart types' := by
  simp only [ConstantsApart, h.mem_iff]

variable {doc : OpenApi} {package : String} {f : SourceFile}

theorem typeNames_eq_keys (h : emit doc package = .ok f) :
    f.typeNames = Dict.keys f.declarations := by
  obtain ⟨e, he, rfl⟩ := Emission.emit_ok h
  simp only [SourceFile.typeNames, SourceFile.types, List.map_map, Dict.keys]
  exact List.map_congr_left (Emission.wellDeclared_of_declareAll he).named

theorem typeNames_nodup (h : emit doc package = .ok f) : f.typeNames.Nodup := by
  rw [typeNames_eq_keys h]
  obtain ⟨e, he, rfl⟩ := Emission.emit_ok h
  exact (Emission.wellDeclared_of_declareAll he).sorted.keys_nodup

theorem constantNames_nodup_of_mem_types (h : emit doc package = .ok f) {d : Declaration}
    (hd : d ∈ f.types) : d.body.constantNames.Nodup := by
  obtain ⟨e, he, rfl⟩ := Emission.emit_ok h
  obtain ⟨p, hp, rfl⟩ := List.mem_map.mp hd
  exact ((Emission.wellDeclared_of_declareAll he).wellFormed p hp).distinct

/-- The constants of all enumerations differ if no two enumerations share one. -/
theorem constantNames_nodup_iff (h : emit doc package = .ok f) :
    f.constantNames.Nodup ↔
      ∀ d ∈ f.types, ∀ c ∈ d.body.constantNames, ∀ other ∈ f.types, other.name ≠ d.name →
        c ∉ other.body.constantNames := by
  rw [SourceFile.constantNames, List.nodup_flatMap]
  constructor
  · rintro ⟨_, hpair⟩ d hd c hc other ho hne hco
    have hsymm : Std.Symm
        (Function.onFun List.Disjoint fun d : Declaration => d.body.constantNames) :=
      ⟨fun _ _ hab _ ha hb => hab hb ha⟩
    exact hpair.forall hd ho (fun heq => hne (heq ▸ rfl)) hc hco
  · intro hapart
    refine ⟨fun d hd => constantNames_nodup_of_mem_types h hd, ?_⟩
    have hnames : f.types.Pairwise fun a b => a.name ≠ b.name :=
      List.pairwise_map.mp (typeNames_nodup h)
    refine hnames.imp_of_mem fun ha hb hne c hc hco => ?_
    exact hapart _ ha c hc _ hb hne.symm hco

theorem identifiers_nodup_iff_types (h : emit doc package = .ok f) :
    f.identifiers.Nodup ↔ ConstantsApart (f.types.map (·.named)) := by
  rw [SourceFile.identifiers, List.nodup_append, constantNames_nodup_iff h]
  simp only [ConstantsApart, List.forall_mem_map]
  constructor
  · rintro ⟨_, hothers, htypes⟩ d hd c hc other ho
    refine ⟨fun heq => ?_, fun hne => hothers d hd c hc other ho hne⟩
    exact htypes other.name (List.mem_map_of_mem ho) c (List.mem_flatMap.mpr ⟨d, hd, hc⟩) heq.symm
  · intro hapart
    refine ⟨typeNames_nodup h, fun d hd c hc other ho => (hapart d hd c hc other ho).2, ?_⟩
    intro name hname c hc heq
    obtain ⟨d, hd, hcd⟩ := List.mem_flatMap.mp hc
    obtain ⟨other, ho, rfl⟩ := List.mem_map.mp hname
    exact (hapart d hd c hcd other ho).1 heq.symm

theorem identifiers_nodup_iff (h : emit doc package = .ok f) :
    f.typeNames.Nodup ∧ (∀ d ∈ f.types, d.body.constantNames.Nodup) ∧
      (f.identifiers.Nodup ↔ ConstantsApart (documentTypes doc)) := by
  refine ⟨typeNames_nodup h, fun d hd => constantNames_nodup_of_mem_types h hd, ?_⟩
  rw [identifiers_nodup_iff_types h, constantsApart_congr (types_perm_documentTypes h)]

/-- A document with one component, an enumeration of texts. -/
def modeDocument (values : List String) : OpenApi :=
  { title := "mode", revision := "v1"
    schemas := [("a.v1.Mode",
      { keywords := { typeName := some "string", values := values.map .str } })] }

theorem identifiers_nodup_on_off :
    ∃ f, emit (modeDocument ["on", "off"]) "v1" = .ok f ∧ f.identifiers.Nodup := by
  have hrun : ∃ f, emit (modeDocument ["on", "off"]) "v1" = .ok f := ⟨_, rfl⟩
  have hapart : ConstantsApart (documentTypes (modeDocument ["on", "off"])) := by
    unfold ConstantsApart
    decide
  obtain ⟨f, hf⟩ := hrun
  exact ⟨f, hf, (identifiers_nodup_iff hf).2.2.mpr hapart⟩

/-- The constant of a text without letters and digits takes the name of its own type. -/
theorem identifiers_repeat_dash :
    ∃ f, emit (modeDocument ["-"]) "v1" = .ok f ∧ ¬f.identifiers.Nodup :=
  ⟨_, rfl, by decide⟩

end ResourceModels.Go
