import ResourceModels.Proofs.Models.Generators
import ResourceModels.Proofs.Overlay
import ResourceModels.Proofs.Registry

/-!
# All models or none

Every generator looks at the definitions through a view of its own, so it gives what it gives when
it is run alone. If all of them succeed, the models of each language are registered whole; if one
fails, its failure is the answer and nothing is registered.
-/

namespace ResourceModels.Models

open FileStore (lookup? PathsNormal)
open Sandbox (Answers Outcome Request Runner)

/-- What the generator of a language gives when it is run alone. -/
def alone (f : FileTree → Request → Outcome) (options : Options) (base : FileTree) :
    Language → Except GenerateError (Option FileTree)
  | .kcl =>
    (Kcl.generate (m := Id) f options.kclImage base options.exclude).run.mapError .kcl
  | .python =>
    (Python.generate (m := Id) f options.pythonImage base options.exclude).run.mapError .python
  | .go => (Go.generate base options.exclude).mapError .go
  | .json => (JsonSchema.generate base options.exclude).mapError .json

/-- What is registered for a language that had `old` before, given the models of a generator. -/
def Registered (old models after : Option FileTree) : Prop :=
  match models with
  | none => after = old
  | some t => ∃ t', after = some t' ∧
      ∀ path, lookup? t' path = (lookup? t path).or (old.bind (lookup? · path))

/-- The registry and the answer after a run over `base`: the failure of one generator and what was
registered before, or the models of all generators in their places and their numbers of files. -/
inductive AllOrNothing (f : FileTree → Request → Outcome) (options : Options) (base : FileTree)
    (registry : MemoryRegistry) : MemoryRegistry × Except GenerateError Summary → Prop
  | failed {l : Language} {e : GenerateError} (h : alone f options base l = .error e) :
    AllOrNothing f options base registry (registry, .error e)
  | registered {models : Language → Option FileTree} {registry' : MemoryRegistry}
      (h : ∀ l, alone f options base l = .ok (models l))
      (hregistry : ∀ l, Registered (registry.models l) (models l) (registry'.models l)) :
    AllOrNothing f options base registry (registry', .ok (Language.all.filterMap fun l =>
      (models l).map fun t => (l, FileStore.size t)))

section

variable {ω σ : Type} [FileStore σ] {run : Runner (StateM ω)} {f : FileTree → Request → Outcome}
  {options : Options} {files : σ} {base : FileTree}

theorem sandboxed_yields (h : Answers run f) (hsame : FileStore.Agree files base) :
    Yields (sandboxed run options files options.exclude)
      (do
        let kcl ← alone f options base .kcl
        let python ← alone f options base .python
        return [(.kcl, kcl), (.python, python)]) := by
  rw [sandboxed, Kcl.generate_congr run _ hsame, Python.generate_congr run _ hsame]
  refine (Kcl.generate_yields h).bind ?_
  simp only [alone]
  cases (Kcl.generate (m := Id) f options.kclImage base options.exclude).run with
  | error cause => exact .pure _
  | ok kcl =>
    refine (Python.generate_yields h).bind ?_
    cases (Python.generate (m := Id) f options.pythonImage base options.exclude).run with
    | error cause => exact .pure _
    | ok python => exact .pure _

theorem written_eq (hsame : FileStore.Agree files base) :
    written files options.exclude = do
      let go ← alone f options base .go
      let json ← alone f options base .json
      return [(.go, go), (.json, json)] := by
  rw [written, Go.generate_congr hsame, JsonSchema.generate_congr hsame]
  rfl

theorem generate_yields (h : Answers run f) (hsame : FileStore.Agree files base) :
    Yields (generate run options files)
      ((Language.all.mapM fun l => (alone f options base l).map fun t => (l, t)).map present) := by
  rw [generate, written_eq hsame (f := f)]
  refine (sandboxed_yields h hsame).bind ?_
  simp only [Language.all, List.mapM_cons, List.mapM_nil]
  cases alone f options base .kcl with
  | error e => exact .pure _
  | ok kcl =>
    cases alone f options base .python with
    | error e => exact .pure _
    | ok python =>
      cases alone f options base .go with
      | error e => exact .pure _
      | ok go =>
        cases alone f options base .json with
        | error e => exact .pure _
        | ok json => exact .pure _

theorem alone_pathsNormal {l : Language} {t : FileTree}
    (hf : ∀ t request, FileStore.Edited t (f t request).tree)
    (h : alone f options base l = .ok (some t)) : PathsNormal t := by
  cases l with
  | kcl => exact Kcl.generate_pathsNormal hf (Outcome.mapError_eq_ok.mp h)
  | python => exact Python.generate_pathsNormal hf (Outcome.mapError_eq_ok.mp h)
  | go => exact Go.generate_pathsNormal (Outcome.mapError_eq_ok.mp h)
  | json => exact JsonSchema.generate_pathsNormal (Outcome.mapError_eq_ok.mp h)

end

theorem mapM_error_or_ok {ε α β : Type} (f : α → Except ε β) (xs : List α) :
    (∃ x ∈ xs, ∃ e, f x = .error e ∧ xs.mapM f = .error e) ∨ ∀ x ∈ xs, ∃ y, f x = .ok y := by
  induction xs with
  | nil => exact .inr fun x hx => absurd hx List.not_mem_nil
  | cons x rest ih =>
    cases hx : f x with
    | error e => exact .inl ⟨x, List.mem_cons_self, e, hx, by rw [List.mapM_cons, hx]; rfl⟩
    | ok y =>
      rcases ih with ⟨x', hx', e, he, hrest⟩ | hrest
      · refine .inl ⟨x', List.mem_cons_of_mem _ hx', e, he, ?_⟩
        rw [List.mapM_cons, hx, hrest]
        rfl
      · exact .inr (List.forall_mem_cons.mpr ⟨⟨y, hx⟩, hrest⟩)

theorem registered_overwrite (old : Option FileTree) (t : FileTree) :
    Registered old (some t) (some ((old.getD ∅).overwrite t)) := by
  refine ⟨_, rfl, fun path => ?_⟩
  rw [FileTree.lookup?_overwrite]
  cases old <;> rfl

theorem register_cons (registry : MemoryRegistry) (language : Language) {models : Option FileTree}
    (hnormal : ∀ t, models = some t → PathsNormal t) :
    ∃ registry', (∀ more, register registry (present ((language, models) :: more)) =
        register registry' (present more)) ∧
      Registered (registry.models language) models (registry'.models language) ∧
        ∀ l, l ≠ language → registry'.models l = registry.models l := by
  cases models with
  | none => exact ⟨registry, fun _ => rfl, rfl, fun _ _ => rfl⟩
  | some t =>
    have hadd : Registry.add registry language t = _ :=
      MemoryRegistry.add_of_pathsNormal (hnormal t rfl)
    refine ⟨registry.set language (((registry.models language).getD ∅).overwrite t),
      fun more => ?_, ?_, fun l hl => ?_⟩
    · change register registry ((language, t) :: present more) = _
      rw [register, hadd]
    · simp only [MemoryRegistry.set, if_true]
      exact registered_overwrite _ t
    · exact if_neg hl

/-- Models whose files stand at paths in normal form are registered for their languages, and the
other languages keep theirs. -/
theorem register_present {models : Language → Option FileTree}
    (hnormal : ∀ l t, models l = some t → PathsNormal t) {languages : List Language}
    (hnodup : languages.Nodup) (registry : MemoryRegistry) :
    ∃ registry', register registry (present (languages.map fun l => (l, models l))) =
        (registry', .ok ()) ∧
      (∀ l ∈ languages, Registered (registry.models l) (models l) (registry'.models l)) ∧
        ∀ l, l ∉ languages → registry'.models l = registry.models l := by
  induction languages generalizing registry with
  | nil => exact ⟨registry, rfl, fun l hl => absurd hl List.not_mem_nil, fun _ _ => rfl⟩
  | cons language rest ih =>
    obtain ⟨hnew, hrest⟩ := List.nodup_cons.mp hnodup
    obtain ⟨next, hstep, hregistered, hothers⟩ := register_cons registry language (hnormal language)
    obtain ⟨registry', hregister, hall, hkept⟩ := ih hrest next
    refine ⟨registry', by rw [List.map_cons, hstep, hregister], fun l hl => ?_, fun l hl => ?_⟩
    · rcases List.mem_cons.mp hl with rfl | hl
      · rwa [hkept l hnew]
      · have hne : l ≠ language := fun heq => hnew (heq ▸ hl)
        rw [← hothers l hne]
        exact hall l hl
    · rw [List.mem_cons, not_or] at hl
      rw [hkept l hl.2, hothers l hl.1]

theorem summary_present (models : Language → Option FileTree) (languages : List Language) :
    summary (present (languages.map fun l => (l, models l))) =
      languages.filterMap fun l => (models l).map fun t => (l, FileStore.size t) := by
  rw [summary, present, List.filterMap_map, List.map_filterMap]
  congr 1
  funext l
  simp only [Function.comp_apply, Option.map_map]
  rfl

theorem settle_allOrNothing {f : FileTree → Request → Outcome} {options : Options}
    {base : FileTree} (hf : ∀ t request, FileStore.Edited t (f t request).tree)
    (registry : MemoryRegistry) :
    AllOrNothing f options base registry (settle registry
      ((Language.all.mapM fun l => (alone f options base l).map fun t => (l, t)).map present)) := by
  rcases mapM_error_or_ok (fun l => (alone f options base l).map fun t => (l, t)) Language.all with
    ⟨l, _, e, hl, hall⟩ | hsome
  · rw [hall]
    refine .failed (l := l) ?_
    cases halone : alone f options base l with
    | error cause =>
      rw [halone] at hl
      cases hl
      rfl
    | ok t =>
      rw [halone] at hl
      cases hl
  · -- no generator fails, so all that is left is the registration
    have hmem : ∀ l, l ∈ Language.all := by
      intro l
      cases l <;> decide
    have halone : ∀ l, ∃ t, alone f options base l = .ok t := by
      intro l
      obtain ⟨pair, hpair⟩ := hsome l (hmem l)
      obtain ⟨t, ht, _⟩ := Outcome.map_eq_ok.mp hpair
      exact ⟨t, ht⟩
    choose models hmodels using halone
    have hnormal : ∀ l t, models l = some t → PathsNormal t := by
      intro l t hl
      apply alone_pathsNormal hf
      rw [hmodels l, hl]
    have hnodup : Language.all.Nodup := by decide
    obtain ⟨registry', hregister, hregistered, _⟩ := register_present hnormal hnodup registry
    have hsettle : settle registry (.ok (present (Language.all.map fun l => (l, models l)))) =
        (registry', .ok (Language.all.filterMap fun l =>
          (models l).map fun t => (l, FileStore.size t))) := by
      rw [settle, hregister, ← summary_present]
    have hpairs : (fun l => (alone f options base l).map fun t => (l, t)) =
        fun l => pure (l, models l) := by
      funext l
      rw [hmodels l]
      rfl
    rw [hpairs, List.mapM_pure]
    change AllOrNothing _ _ _ _ (settle registry (.ok (present _)))
    rw [hsettle]
    exact .registered hmodels fun l => hregistered l (hmem l)

theorem update_allOrNothing {ω : Type} {run : Runner (StateM ω)}
    {f : FileTree → Request → Outcome} (h : Answers run f) (options : Options)
    (registry : MemoryRegistry) (base : FileTree) (s : ω) :
    AllOrNothing f options base registry
      (update run options registry (Overlay.ofBase base) s).1 ∧
    ∀ changes, ∀ x ∈ FileStore.trace (Overlay.ofBase base) changes, x.1.base = base := by
  have hgenerate : Yields (generate run options (Overlay.ofBase base)) _ :=
    generate_yields h (FileStore.agree_of_sameFiles (Overlay.sameFiles_ofBase base))
  have hupdate : (update run options registry (Overlay.ofBase base) s).1 = settle registry
      ((Language.all.mapM fun l => (alone f options base l).map fun t => (l, t)).map present) :=
    congrArg (settle registry) (hgenerate s)
  rw [hupdate]
  exact ⟨settle_allOrNothing h.edited registry,
    fun changes => Overlay.trace_base (Overlay.ofBase base) changes⟩

/-- A definition of a kind without versions, which only the first generator has models for. -/
def unversioned : FileTree :=
  .ofEntries
    [("a.yaml", .file (Text.encode ("\x7bkind: CustomResourceDefinition, " ++
      "spec: \x7bgroup: g, names: \x7bkind: K\x7d\x7d\x7d")))]

/-- What the first generator leaves for the kind. -/
def importerRules : List Sandbox.Rule :=
  [{ image := "kcl", write := [("models/g_v1_K.k", FileTree.textEntry "schema K:\n")] }]

def counts : Except GenerateError Summary → Option Summary
  | .ok s => some s
  | .error _ => none

/-- The answer and the registry after the models of `unversioned` were asked for. -/
def unversionedModels : MemoryRegistry × Except GenerateError Summary :=
  (update (Sandbox.byRules importerRules) {} (∅ : MemoryRegistry)
    (Overlay.ofBase unversioned) []).1

theorem unversioned_allOrNothing :
    counts unversionedModels.2 = some [(.kcl, 1)] ∧
      AllOrNothing (fun t request => Sandbox.Rule.follow request importerRules t) {} unversioned ∅
        unversionedModels :=
  ⟨by decide +kernel,
    (update_allOrNothing (Sandbox.byRules_answers importerRules) {} ∅ unversioned []).1⟩

end ResourceModels.Models
