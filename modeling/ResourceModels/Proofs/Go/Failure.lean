import ResourceModels.Go
import ResourceModels.Proofs.Go.Success
import ResourceModels.Proofs.OpenApi

/-!
# Documents that cannot be written

A document cannot be written exactly if emission looks for the type of a schema that has no type. The
failure names the first component where that happens, with the reference or the type of the schema;
it is never about the name of a declared type.
-/

namespace ResourceModels.Go

namespace Emission

/-- The types that a schema may have. -/
def knownTypes : List String := ["string", "integer", "number", "boolean", "array", "object"]

/-- A schema that has no type, where the given components are declared: it refers to none of them,
or nothing that would come first spells its type out and the type has no meaning. -/
def Unusable (names : List String) (n : Schema) : Prop :=
  spelledOut? n.keywords = none ∧
    match n.keywords.reference with
    | some reference => ∀ name ∈ names, reference ≠ Schema.componentRef name
    | none => soleMember? n = none ∧ isIntOrText n.keywords = false ∧
        ∃ type ∈ n.keywords.typeName, type ∉ knownTypes

theorem isSome_fault?_reference {names : List String} {text : String} :
    ((Form.reference text).fault? names).isSome ↔
      ∀ name ∈ names, text ≠ Schema.componentRef name := by
  rw [← Option.ne_none_iff_isSome, ne_eq, ← Form.usable_iff, Form.Usable]
  simp only [Option.mem_def, OpenApi.refTarget?_eq_some, not_exists, not_and]
  exact ⟨fun h name hname heq => h name heq hname, fun h name heq hname => h name hname heq⟩

theorem isSome_fault?_formOfType {names : List String} {s : Schema} :
    ((formOfType s s.keywords.typeName).fault? names).isSome ↔
      ∃ type ∈ s.keywords.typeName, type ∉ ["array", "object"] := by
  cases s.keywords.typeName with
  | none => simp [formOfType, Form.fault?]
  | some type =>
    by_cases harray : type = "array"
    · simp [harray, formOfType, Form.fault?]
    · by_cases hobject : type = "object"
      · simp [hobject, formOfType, Form.fault?]
      · simp [formOfType, harray, hobject, Form.fault?]

theorem isSome_scalar?_iff {k : Keywords} :
    (scalar? k).isSome ↔
      ∃ type ∈ k.typeName, type ∈ ["string", "integer", "number", "boolean"] := by
  unfold scalar?
  split
  · next h => split <;> simp [h]
  · next h => simp [h]
  · next h => simp [h]
  · next h => simp [h]
  · next hstring hinteger hnumber hboolean =>
    cases hk : k.typeName <;> simp_all

/-- What is an object or a text with listed values has a type with a meaning. -/
theorem not_unknown_of_isType {k : Keywords} {name : String} (h : k.isType name = true)
    (hname : name ∈ knownTypes) : ¬∃ type ∈ k.typeName, type ∉ knownTypes := by
  have htype : k.typeName = some name := by simpa [Keywords.isType] using h
  rw [htype]
  rintro ⟨type, ⟨⟩, hunknown⟩
  exact hunknown hname

theorem isSome_fault?_ownForm {names : List String} {s : Schema} :
    ((ownForm s).fault? names).isSome ↔
      isIntOrText s.keywords = false ∧ ∃ type ∈ s.keywords.typeName, type ∉ knownTypes := by
  unfold ownForm
  split
  · next hint => simp [hint, Form.fault?]
  next hint =>
  rw [Bool.not_eq_true] at hint
  rw [and_iff_right hint]
  split
  · next hstruct =>
    simp only [isStruct, Bool.and_eq_true, Bool.or_eq_true, Option.isNone_iff_eq_none] at hstruct
    refine iff_of_false (by simp [Form.fault?]) ?_
    rcases hstruct.2 with hnone | hobject
    · simp [hnone]
    · exact not_unknown_of_isType hobject (by decide)
  split
  · next henum =>
    simp only [isEnumeration, Bool.and_eq_true] at henum
    exact iff_of_false (by simp [Form.fault?]) (not_unknown_of_isType henum.1.1 (by decide))
  cases hscalar : scalar? s.keywords with
  | some type =>
    obtain ⟨name, hname, hknown⟩ := isSome_scalar?_iff.mp (Option.isSome_of_mem hscalar)
    have htype : s.keywords.isType name = true := by simpa [Keywords.isType] using hname
    refine iff_of_false (by simp [Form.fault?]) (not_unknown_of_isType htype ?_)
    exact List.mem_append_left ["array", "object"] hknown
  | none =>
    have hnot := mt isSome_scalar?_iff.mpr (Option.not_isSome_iff_eq_none.mpr hscalar)
    dsimp only
    rw [isSome_fault?_formOfType]
    refine exists_congr fun type => and_congr_right fun htype => ?_
    have hno : type ∉ ["string", "integer", "number", "boolean"] := fun h => hnot ⟨type, htype, h⟩
    have hsplit :
        knownTypes = ["string", "integer", "number", "boolean"] ++ ["array", "object"] := rfl
    rw [hsplit, List.mem_append, not_or, and_iff_right hno]

theorem isSome_fault?_form {names : List String} {n : Schema} :
    ((form n).fault? names).isSome ↔ Unusable names n := by
  unfold form Unusable
  cases spelledOut? n.keywords with
  | some spelled => simp [Form.fault?]
  | none =>
    cases n.keywords.reference with
    | some reference => simpa using isSome_fault?_reference
    | none =>
      cases soleMember? n with
      | some member => simp [Form.fault?]
      | none => simpa using isSome_fault?_ownForm

theorem unusable_iff {names : List String} {n : Schema} :
    Unusable names n ↔ ∃ fault, (form n).fault? names = some fault := by
  rw [← isSome_fault?_form, Option.isSome_iff_exists]

end Emission

/-- A document cannot be written exactly if an unusable schema is looked for. The failure then is
that of the first component that looks for one, and it reports the reference or the type of one. -/
theorem source_fails_iff {doc : OpenApi} (hkeys : (Dict.keys doc.schemas).Nodup)
    (package : String) :
    ((∃ failure, source doc package = .error failure) ↔
      ∃ c ∈ doc.schemas, ∃ part ∈ Emission.componentParts c.2, ∃ n, Emission.Visits part n ∧
        Emission.Unusable (Dict.keys doc.schemas) n) ∧
    ∀ failure, source doc package = .error failure →
      ∃ before component s after fault,
        failure = .emission component fault ∧ doc.schemas = before ++ (component, s) :: after ∧
        (∀ c ∈ before, ∀ part ∈ Emission.componentParts c.2, ∀ n, Emission.Visits part n →
          ¬Emission.Unusable (Dict.keys doc.schemas) n) ∧
        (∃ part ∈ Emission.componentParts s, ∃ n, Emission.Visits part n ∧
          Emission.Unusable (Dict.keys doc.schemas) n ∧
            (Emission.form n).fault? (Dict.keys doc.schemas) = some fault) ∧
        ∀ name, fault ≠ .duplicateType name := by
  have hsound : ∀ {s : Schema}, Emission.SoundComponent (Dict.keys doc.schemas) s →
      ∀ part ∈ Emission.componentParts s, ∀ n, Emission.Visits part n →
        ¬Emission.Unusable (Dict.keys doc.schemas) n := by
    intro s h part hp n hn hunusable
    obtain ⟨fault, hfault⟩ := Emission.unusable_iff.mp hunusable
    rw [h part hp n hn] at hfault
    cases hfault
  rcases emit_tells hkeys package with ⟨f, hf, hall⟩ | ⟨failure, hfailure, hfails⟩
  · have hsource : source doc package = .ok f := by rw [source, hf]; rfl
    refine ⟨iff_of_false ?_ ?_, ?_⟩
    · rintro ⟨failure, h⟩
      rw [hsource] at h
      cases h
    · rintro ⟨c, hc, part, hp, n, hn, hunusable⟩
      exact hsound (hall c hc) part hp n hn hunusable
    · intro failure h
      rw [hsource] at h
      cases h
  · obtain ⟨before, s, after, hschemas, hbefore, part, hp, n, hn, hfault⟩ := hfails
    have hsource : source doc package = .error (.emission failure.1 failure.2) := by
      rw [source, hfailure]
      rfl
    have hunusable : Emission.Unusable (Dict.keys doc.schemas) n :=
      Emission.unusable_iff.mpr ⟨failure.2, hfault⟩
    refine ⟨iff_of_true ⟨_, hsource⟩ ?_, fun failure' h => ?_⟩
    · exact ⟨(failure.1, s), by simp [hschemas], part, hp, n, hn, hunusable⟩
    · rw [hsource] at h
      cases h
      refine ⟨before, failure.1, s, after, failure.2, rfl, hschemas,
        fun c hc => hsound (hbefore c hc), ⟨part, hp, n, hn, hunusable, hfault⟩, ?_⟩
      rintro name heq
      exact Emission.Form.fault?_ne_duplicateType _ _ name (heq ▸ hfault)

/-- The second of two components has a list of what no component describes. -/
def danglingDocument : OpenApi where
  title := "a v1"
  revision := "v1"
  schemas := [
    ("a.v1.Owner", { keywords := { typeName := some "string" } }),
    ("a.v1.Widget", { properties := [
      ("owners", (Schema.typed "array").withItems (Schema.ref "a.v1.Person"))] })]

theorem danglingDocument_fails : (Dict.keys danglingDocument.schemas).Nodup ∧
    ∃ failure, source danglingDocument "v1" = .error failure := by
  have hkeys : (Dict.keys danglingDocument.schemas).Nodup := by decide
  refine ⟨hkeys, (source_fails_iff hkeys "v1").1.mpr ?_⟩
  let people : Schema := (Schema.typed "array").withItems (Schema.ref "a.v1.Person")
  have hvisits : Emission.Visits people (Schema.ref "a.v1.Person") :=
    .within List.mem_cons_self (.here _)
  refine ⟨_, List.mem_cons_of_mem _ List.mem_cons_self, people, List.mem_cons_self, _, hvisits, ?_⟩
  have hgone : ∀ name ∈ ["a.v1.Owner", "a.v1.Widget"],
      Schema.componentRef "a.v1.Person" ≠ Schema.componentRef name := by decide +kernel
  exact ⟨rfl, hgone⟩

end ResourceModels.Go
