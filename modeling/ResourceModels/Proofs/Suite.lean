import ResourceModels.Proofs.FileTree
import ResourceModels.Proofs.Sandbox
import ResourceModels.Proofs.TestCase
import ResourceModels.Suite

/-!
# Strict and lenient suites

What is done about a test directory, and what is asked of the runner, does not depend on the mode:
only what becomes of the items that a job leaves does. So a suite that is built strictly is built
leniently with the same test cases and the same jobs, and one that is only built leniently has a
directory with a faulty item.
-/

namespace ResourceModels

namespace Sandbox

/-- The trees and requests that a runner was handed, in order. -/
abbrev Jobs := List (FileTree × Request)

/-- A runner that keeps what it is handed beside a state of its own. -/
def recording {ω : Type} (run : Runner (StateM ω)) : Runner (StateM (ω × Jobs)) :=
  fun t request s => ((run t request s.1).1, (run t request s.1).2, s.2 ++ [(t, request)])

end Sandbox

namespace Suite

open Sandbox

def Builder.inMode (b : Builder) (mode : DecodeMode) : Builder :=
  { b with options := { b.options with mode } }

/-- What is done about a directory of tests. -/
inductive Visit
  | refused (cause : FileError)
  | plain
  | skipped
  | job (t : FileTree) (request : Request)

def Visit.jobs : Visit → Jobs
  | .job t request => [(t, request)]
  | _ => []

def visit (b : Builder) (tests : FileTree) (location : Location) (dir : String) : Visit :=
  match tests.subtree dir with
  | .error cause => .refused cause
  | .ok t =>
    match b.identify t with
    | none => .plain
    | some language =>
      if language ∈ b.languages then
        .job t { request b.options language with
          hostBase := location.hostRoot.map (HostPath.join · dir) }
      else .skipped

/-- The test cases of a directory whose job has ended. -/
def ended (mode : DecodeMode) (dir : String) (o : Outcome) : Except SuiteError (List TestCase) :=
  match o.result with
  | .error cause => .error (.render dir cause)
  | .ok () => collect mode dir o.tree

/-- The test cases of a directory where jobs are answered by a function. -/
def answered (f : FileTree → Request → Outcome) (mode : DecodeMode) (tests : FileTree)
    (dir : String) : Visit → Except SuiteError (List TestCase)
  | .refused cause => .error (.file cause)
  | .plain => plainTest tests dir
  | .skipped => .ok []
  | .job t request => ended mode dir (f t request)

/-- The items that the job of a directory leaves. -/
def renderedItems? (f : FileTree → Request → Outcome) : Visit → Option (List Json)
  | .job t request =>
    match (f t request).result with
    | .error _ => none
    | .ok () =>
      (FileStore.read (f t request).tree "test.yaml").toOption.bind TestCase.items?
  | _ => none

/-- A failure that tells of an item of a directory that is no valid test. -/
def BlamesItem (f : FileTree → Request → Outcome) (b : Builder) (tests : FileTree)
    (location : Location) (dir : String) (e : SuiteError) : Prop :=
  ∃ items, renderedItems? f (visit b tests location dir) = some items ∧ ∃ item ∈ items,
    ∃ cause, (RenderedItem.ofJson item).fault? = some cause ∧ e = .decode dir cause

theorem visit_inMode (b : Builder) (mode : DecodeMode) (tests : FileTree) (location : Location)
    (dir : String) : visit (b.inMode mode) tests location dir = visit b tests location dir := by
  have hrequest : ∀ language, request (b.inMode mode).options language =
      request b.options language := by
    intro language
    cases language <;> rfl
  simp only [visit, hrequest]
  rfl

theorem checkCase_eq_ok {mode : DecodeMode} {dir : String} {t : TestCase} {u : Unit} :
    checkCase mode dir t = .ok u ↔ mode = .strict → t.validate = .ok () := by
  unfold checkCase
  cases hvalid : t.validate <;> cases mode <;> simp

theorem checkCases_eq_ok {mode : DecodeMode} {dir : String} {cases : List TestCase} {u : Unit} :
    forM cases (checkCase mode dir) = .ok u ↔
      (mode = .strict → ∀ t ∈ cases, t.validate = .ok ()) := by
  induction cases with
  | nil => simp [pure, Except.pure]
  | cons t rest ih =>
    rw [List.forM_cons, Outcome.bind_eq_ok]
    simp only [ih, checkCase_eq_ok, List.forall_mem_cons]
    constructor
    · rintro ⟨_, ht, hrest⟩ hmode
      exact ⟨ht hmode, hrest hmode⟩
    · intro h
      exact ⟨(), fun hmode => (h hmode).1, fun hmode => (h hmode).2⟩

/-- A strict check fails with what is wrong with a test case. -/
theorem exists_of_checkCases_error {dir : String} {cases : List TestCase} {e : SuiteError}
    (h : forM cases (checkCase .strict dir) = .error e) :
    ∃ t ∈ cases, ∃ cause, t.validate = .error cause ∧ e = .decode dir cause := by
  induction cases with
  | nil => cases h
  | cons t rest ih =>
    rw [List.forM_cons] at h
    cases ht : checkCase .strict dir t with
    | ok _ =>
      rw [ht] at h
      obtain ⟨other, hother, hcause⟩ := ih h
      exact ⟨other, List.mem_cons_of_mem _ hother, hcause⟩
    | error e' =>
      rw [ht] at h
      cases h
      unfold checkCase at ht
      split at ht
      · next cause hvalid _ =>
        cases ht
        exact ⟨t, List.mem_cons_self, cause, hvalid, rfl⟩
      · cases ht

section

variable {mode : DecodeMode} {dir : String} {t : FileTree} {cases : List TestCase}

theorem collect_eq_ok : collect mode dir t = .ok cases ↔
    ∃ rendered items, FileStore.read t "test.yaml" = .ok rendered ∧
      TestCase.items? rendered = some items ∧ TestCase.ofItems mode items = .ok cases ∧
        (mode = .strict → ∀ t ∈ cases, t.validate = .ok ()) := by
  simp only [collect, List.forM_eq_forM, Outcome.bind_eq_ok, Outcome.mapError_eq_ok,
    Outcome.pure_eq_ok, checkCases_eq_ok]
  constructor
  · rintro ⟨rendered, hread, own, hdecode, _, hvalid, rfl⟩
    cases hitems : TestCase.items? rendered with
    | none =>
      obtain ⟨cause, hcause⟩ := TestCase.decode_of_noItems hitems
      rw [hcause] at hdecode
      cases hdecode
    | some items =>
      rw [TestCase.decode_of_items? hitems] at hdecode
      exact ⟨rendered, items, hread, hitems, hdecode, hvalid⟩
  · rintro ⟨rendered, items, hread, hitems, hdecode, hvalid⟩
    rw [← TestCase.decode_of_items? hitems] at hdecode
    exact ⟨rendered, hread, cases, hdecode, (), hvalid, rfl⟩

/-- Of a tree with a list of items, strict mode refuses nothing but a faulty item. -/
theorem exists_of_collect_strict_error {rendered : ByteArray} {items : List Json} {e : SuiteError}
    (hread : FileStore.read t "test.yaml" = .ok rendered)
    (hitems : TestCase.items? rendered = some items) (h : collect .strict dir t = .error e) :
    ∃ item ∈ items, ∃ cause, (RenderedItem.ofJson item).fault? = some cause ∧
      e = .decode dir cause := by
  rw [collect, hread] at h
  change (((TestCase.decode rendered .strict).mapError (.decode dir)) >>= fun cases =>
    forM cases (checkCase .strict dir) >>= fun _ => pure cases) = .error e at h
  rw [TestCase.decode_of_items? hitems] at h
  cases hdecode : TestCase.ofItems .strict items with
  | error cause =>
    rw [hdecode] at h
    cases h
    obtain ⟨item, hitem, hfault⟩ := TestCase.exists_of_ofItems_strict_error hdecode
    exact ⟨item, hitem, cause, hfault, rfl⟩
  | ok own =>
    rw [hdecode] at h
    change (forM own (checkCase .strict dir) >>= fun _ => pure own) = .error e at h
    cases hcheck : forM own (checkCase .strict dir) with
    | ok _ =>
      rw [hcheck] at h
      cases h
    | error e' =>
      rw [hcheck] at h
      cases h
      obtain ⟨t, ht, cause, hvalid, rfl⟩ := exists_of_checkCases_error hcheck
      obtain ⟨item, hitem, hown⟩ := TestCase.exists_item_of_mem hdecode ht
      exact ⟨item, hitem, cause, by rw [hown, RenderedItem.fault?, hvalid], rfl⟩

end

theorem validate_of_plainTest {tests : FileTree} {dir : String} {cases : List TestCase}
    (h : plainTest tests dir = .ok cases) : ∀ t ∈ cases, t.validate = .ok () := by
  unfold plainTest at h
  dsimp only at h
  split at h
  · obtain ⟨own, hown, rfl⟩ := Outcome.map_eq_ok.mp h
    rw [loadEndToEnd, Outcome.bind_eq_ok] at hown
    obtain ⟨bytes, _, hparse⟩ := hown
    intro t ht
    rw [List.mem_singleton.mp ht]
    exact EndToEndTest.validate_of_parse (Outcome.mapError_eq_ok.mp hparse)
  · cases h
    intro t ht
    cases ht

section

variable {f : FileTree → Request → Outcome} {tests : FileTree} {dir : String}
  {cases : List TestCase}

theorem answered_lenient_of_strict {v : Visit} (h : answered f .strict tests dir v = .ok cases) :
    answered f .lenient tests dir v = .ok cases ∧ ∀ t ∈ cases, t.validate = .ok () := by
  cases v with
  | refused cause => cases h
  | plain => exact ⟨h, validate_of_plainTest h⟩
  | skipped =>
    cases h
    exact ⟨rfl, fun t ht => absurd ht List.not_mem_nil⟩
  | job t request =>
    simp only [answered, ended] at h ⊢
    split at h
    · cases h
    · obtain ⟨rendered, items, hread, hitems, hdecode, hvalid⟩ := collect_eq_ok.mp h
      refine ⟨collect_eq_ok.mpr ⟨rendered, items, hread, hitems, ?_, nofun⟩, hvalid rfl⟩
      exact TestCase.ofItems_lenient_of_strict hdecode

theorem blamesItem_of_answered {b : Builder} {location : Location} {e : SuiteError}
    (hlenient : answered f .lenient tests dir (visit b tests location dir) = .ok cases)
    (hstrict : answered f .strict tests dir (visit b tests location dir) = .error e) :
    BlamesItem f b tests location dir e := by
  unfold BlamesItem
  generalize visit b tests location dir = v at hlenient hstrict ⊢
  cases v with
  | refused cause => cases hlenient
  | plain =>
    cases hlenient.symm.trans hstrict
  | skipped => cases hstrict
  | job t request =>
    simp only [answered, ended] at hlenient hstrict
    split at hstrict
    · next hresult =>
      rw [hresult] at hlenient
      cases hlenient
    · next hresult =>
      rw [hresult] at hlenient
      obtain ⟨rendered, items, hread, hitems, _⟩ := collect_eq_ok.mp hlenient
      refine ⟨items, ?_, exists_of_collect_strict_error hread hitems hstrict⟩
      simp only [renderedItems?, hresult, hread]
      exact hitems

variable {ω : Type} {run : Runner (StateM ω)} {b : Builder} {location : Location}

/-- What comes of a directory and what the runner is handed there. -/
theorem buildDir_recording (h : ∀ t request, Yields (run t request) (f t request)) (b : Builder)
    (tests : FileTree) (location : Location) (dir : String) (s : ω) (jobs : Jobs) : ∃ s', buildDir (recording run) b tests location dir (s, jobs) =
      (answered f b.options.mode tests dir (visit b tests location dir), s',
        jobs ++ (visit b tests location dir).jobs) := by
  have hidle : ∀ x : Except SuiteError (List TestCase), ∃ s',
      (pure x : StateM (ω × Jobs) _) (s, jobs) = (x, s', jobs ++ []) := by
    intro x
    rw [List.append_nil]
    exact ⟨s, rfl⟩
  unfold buildDir visit
  cases tests.subtree dir with
  | error cause => exact hidle _
  | ok t =>
    cases hlanguage : b.identify t with
    | none =>
      simp only [hlanguage]
      exact hidle _
    | some language =>
      by_cases hmem : language ∈ b.languages
      · simp only [hlanguage, if_pos hmem]
        generalize ({ request b.options language with
          hostBase := location.hostRoot.map (HostPath.join · dir) } : Request) = own
        refine ⟨(run t own s).2, ?_⟩
        have hanswer : (run t own s).1 = f t own := h t own s
        change (StateT.bind (recording run t own) _ : StateM (ω × Jobs) _) (s, jobs) = _
        simp only [StateT.bind, recording, hanswer, answered, ended, bind, pure, Visit.jobs]
        cases (f t own).result <;> rfl
      · simp only [hlanguage, if_neg hmem]
        exact hidle _

/-- A strict run beside a lenient one: what it gives is given by both, with the same jobs, and what
it refuses alone is blamed on something. -/
structure Beside (blames : SuiteError → Prop)
    (strict lenient : Except SuiteError (List TestCase) × ω × Jobs) : Prop where
  kept : ∀ cases, strict.1 = .ok cases →
    lenient.1 = .ok cases ∧ lenient.2.2 = strict.2.2 ∧ ∀ t ∈ cases, t.validate = .ok ()
  blamed : ∀ cases e, lenient.1 = .ok cases → strict.1 = .error e → blames e

/-- A run that goes on after a directory, unless the directory fails. -/
def resume (first : Except SuiteError (List TestCase) × ω × Jobs)
    (rest : ω × Jobs → Except SuiteError (List TestCase) × ω × Jobs) :
    Except SuiteError (List TestCase) × ω × Jobs :=
  match first.1 with
  | .error e => (.error e, first.2)
  | .ok cases => ((rest first.2).1.map (cases ++ ·), (rest first.2).2)

theorem buildDirs_cons (dir : String) (rest : List String) (s : ω × Jobs) :
    buildDirs (recording run) b tests location (dir :: rest) s =
      resume (buildDir (recording run) b tests location dir s)
        (buildDirs (recording run) b tests location rest) := by
  rw [buildDirs]
  change StateT.bind (buildDir (recording run) b tests location dir) _ s = _
  rw [StateT.bind]
  generalize buildDir (recording run) b tests location dir s = first
  obtain ⟨own, s'⟩ := first
  cases own <;> rfl

theorem Beside.resume {blames : SuiteError → Prop}
    {strict lenient : Except SuiteError (List TestCase) × ω × Jobs}
    {rest rest' : ω × Jobs → Except SuiteError (List TestCase) × ω × Jobs}
    (hfirst : Beside blames strict lenient) (hrest : Beside blames (rest strict.2) (rest' lenient.2)) :
    Beside blames (resume strict rest) (resume lenient rest') := by
  obtain ⟨own, s⟩ := strict
  obtain ⟨own', s'⟩ := lenient
  constructor
  · intro cases hok
    cases own with
    | error e => cases hok
    | ok first =>
      obtain ⟨more, hmore, rfl⟩ := Outcome.map_eq_ok.mp hok
      obtain ⟨hsame, _, hvalid⟩ := hfirst.kept first rfl
      obtain ⟨hmore', hjobs, hvalid'⟩ := hrest.kept more hmore
      simp only [Suite.resume, show own' = .ok first from hsame, hmore']
      exact ⟨rfl, hjobs, List.forall_mem_append.mpr ⟨hvalid, hvalid'⟩⟩
  · intro cases e hok herror
    cases own' with
    | error e' => cases hok
    | ok first' =>
      obtain ⟨more, hmore, _⟩ := Outcome.map_eq_ok.mp hok
      cases own with
      | error e' =>
        cases herror
        exact hfirst.blamed first' _ rfl rfl
      | ok first => exact hrest.blamed more e hmore (Outcome.map_eq_error.mp herror)

theorem Beside.mono {blames blames' : SuiteError → Prop}
    {strict lenient : Except SuiteError (List TestCase) × ω × Jobs}
    (h : Beside blames strict lenient) (himp : ∀ e, blames e → blames' e) :
    Beside blames' strict lenient :=
  ⟨h.kept, fun cases e hok herror => himp e (h.blamed cases e hok herror)⟩

theorem buildDir_beside (h : ∀ t request, Yields (run t request) (f t request)) (b : Builder)
    (tests : FileTree) (location : Location) (dir : String) (s s' : ω) (jobs : Jobs) : ∃ s₁ s₁' jobs₁,
      (buildDir (recording run) (b.inMode .strict) tests location dir (s, jobs)).2 = (s₁, jobs₁) ∧
      (buildDir (recording run) (b.inMode .lenient) tests location dir (s', jobs)).2 =
        (s₁', jobs₁) ∧
      Beside (BlamesItem f b tests location dir)
        (buildDir (recording run) (b.inMode .strict) tests location dir (s, jobs))
        (buildDir (recording run) (b.inMode .lenient) tests location dir (s', jobs)) := by
  obtain ⟨s₁, hstrict⟩ := buildDir_recording h (b.inMode .strict) tests location dir s jobs
  obtain ⟨s₁', hlenient⟩ := buildDir_recording h (b.inMode .lenient) tests location dir s' jobs
  rw [visit_inMode] at hstrict hlenient
  rw [hstrict, hlenient]
  refine ⟨s₁, s₁', _, rfl, rfl, fun cases hok => ?_, fun cases e hok herror => ?_⟩
  · obtain ⟨hsame, hvalid⟩ := answered_lenient_of_strict hok
    exact ⟨hsame, rfl, hvalid⟩
  · exact blamesItem_of_answered hok herror

/-- Both runs visit the same directories until one of them fails, and hand out the same jobs. -/
theorem buildDirs_beside (h : ∀ t request, Yields (run t request) (f t request)) (b : Builder)
    (tests : FileTree) (location : Location) (dirs : List String) (s s' : ω) (jobs : Jobs) :
    Beside (fun e => ∃ dir ∈ dirs, BlamesItem f b tests location dir e)
      (buildDirs (recording run) (b.inMode .strict) tests location dirs (s, jobs))
      (buildDirs (recording run) (b.inMode .lenient) tests location dirs (s', jobs)) := by
  induction dirs generalizing s s' jobs with
  | nil =>
    refine ⟨fun cases hstrict => ?_, fun cases e _ hstrict => by cases hstrict⟩
    cases hstrict
    exact ⟨rfl, rfl, fun t ht => absurd ht List.not_mem_nil⟩
  | cons dir rest ih =>
    obtain ⟨s₁, s₁', jobs₁, hstrict, hlenient, hdir⟩ :=
      buildDir_beside h b tests location dir s s' jobs
    rw [buildDirs_cons, buildDirs_cons]
    refine Beside.resume (hdir.mono fun e he => ⟨dir, List.mem_cons_self, he⟩) ?_
    rw [hstrict, hlenient]
    refine (ih s₁ s₁' jobs₁).mono ?_
    rintro e ⟨other, hother, hblames⟩
    exact ⟨other, List.mem_cons_of_mem _ hother, hblames⟩

/-- What a build gives and what it hands to the runner, which starts in some state. -/
def built (run : Runner (StateM ω)) (b : Builder) (tests : FileTree) (patterns : List String)
    (location : Location) (s : ω) : Except SuiteError (List TestCase) × Jobs :=
  let r := build (recording run) b tests patterns location (s, [])
  (r.1, r.2.2)

/-- Where a runner answers a job by its tree and request, a suite that is built strictly is built
leniently with the same test cases by the same jobs, and all of them are valid. If it is only built
leniently, the failure is that of a faulty item of a test directory. -/
theorem built_strict_lenient (h : ∀ t request, Yields (run t request) (f t request)) (b : Builder)
    (tests : FileTree) (patterns : List String) (location : Location) (s s' : ω) :
    (∀ cases, (built run (b.inMode .strict) tests patterns location s).1 = .ok cases →
      built run (b.inMode .lenient) tests patterns location s' =
        built run (b.inMode .strict) tests patterns location s ∧
          ∀ t ∈ cases, t.validate = .ok ()) ∧
    ∀ cases e, (built run (b.inMode .lenient) tests patterns location s').1 = .ok cases →
      (built run (b.inMode .strict) tests patterns location s).1 = .error e →
        ∃ dirs, discover tests patterns location.folder location.start = .ok dirs ∧
          ∃ dir ∈ dirs, BlamesItem f b tests location dir e := by
  unfold built build
  cases hdirs : discover tests patterns location.folder location.start with
  | error fault =>
    refine ⟨fun cases hstrict => ?_, fun cases e hlenient => ?_⟩
    · cases hstrict
    · cases hlenient
  | ok dirs =>
    have hbeside := buildDirs_beside h b tests location dirs s s' []
    refine ⟨fun cases hstrict => ?_, fun cases e hlenient hstrict => ?_⟩
    · obtain ⟨hsame, hjobs, hvalid⟩ := hbeside.kept cases hstrict
      exact ⟨Prod.ext (hsame.trans hstrict.symm) hjobs, hvalid⟩
    · exact ⟨dirs, rfl, hbeside.blamed cases e hlenient hstrict⟩

end

/-- Two tests: a program in each of two languages. -/
def twoTests : FileTree :=
  .ofEntries
    [("test-a/kcl.mod", FileTree.textEntry ""), ("test-b/main.py", FileTree.textEntry "")]

/-- The first program leaves a test, and the second one leaves something else beside a test. -/
def mixedRules : List Rule :=
  [{ present := some "kcl.mod"
     write := [("test.yaml", FileTree.textEntry
       "items: [\x7bkind: CompositionTest, metadata: \x7bname: a\x7d\x7d]")] },
   { present := some "main.py"
     write := [("test.yaml", FileTree.textEntry
       "items: [\x7bkind: CompositionTest, metadata: \x7bname: b\x7d\x7d, \x7bkind: ConfigMap\x7d]")] }]

def mixedAnswer (t : FileTree) (request : Request) : Outcome := Rule.follow request mixedRules t

def twoTestsLocation : Location := { folder := "tests/", start := "test-" }

/-- The two tests, or those that a pattern selects, built in a mode. -/
def mixedSuite (mode : DecodeMode) (pattern : String) :
    Except SuiteError (List TestCase) × Jobs :=
  built (byRules mixedRules) (Builder.inMode {} mode) twoTests [pattern] twoTestsLocation []

def caseNames (r : Except SuiteError (List TestCase)) : Option (List String) :=
  r.toOption.map (List.map TestCase.name)

theorem mixedSuite_evaluated :
    caseNames (mixedSuite .strict "tests/test-a").1 = some ["a"] ∧
      caseNames (mixedSuite .lenient "tests/").1 = some ["a", "b"] ∧
        caseNames (mixedSuite .strict "tests/").1 = none := by
  decide +kernel

theorem exists_of_caseNames {r : Except SuiteError (List TestCase)} {names : List String}
    (h : caseNames r = some names) : ∃ cases, r = .ok cases := by
  cases r with
  | error e => cases h
  | ok cases => exact ⟨cases, rfl⟩

theorem exists_of_noNames {r : Except SuiteError (List TestCase)} (h : caseNames r = none) :
    ∃ e, r = .error e := by
  cases r with
  | error e => exact ⟨e, rfl⟩
  | ok cases => cases h

/-- One of the tests is built alike in both modes, and both are built in lenient mode only. -/
theorem mixedSuite_strict_lenient :
    (∃ cases, (mixedSuite .strict "tests/test-a").1 = .ok cases ∧
      mixedSuite .lenient "tests/test-a" = mixedSuite .strict "tests/test-a") ∧
    ∃ cases e dirs, (mixedSuite .lenient "tests/").1 = .ok cases ∧
      (mixedSuite .strict "tests/").1 = .error e ∧
      discover twoTests ["tests/"] "tests/" "test-" = .ok dirs ∧
      ∃ dir ∈ dirs, BlamesItem mixedAnswer {} twoTests twoTestsLocation dir e := by
  obtain ⟨hone, hlenient, hstrict⟩ := mixedSuite_evaluated
  obtain ⟨first, hone⟩ := exists_of_caseNames hone
  obtain ⟨cases, hlenient⟩ := exists_of_caseNames hlenient
  obtain ⟨e, hstrict⟩ := exists_of_noNames hstrict
  have hanswer := (byRules_answers mixedRules).answer
  have hkept := (built_strict_lenient hanswer {} twoTests ["tests/test-a"] twoTestsLocation [] []).1
  have hblamed := (built_strict_lenient hanswer {} twoTests ["tests/"] twoTestsLocation [] []).2
  obtain ⟨dirs, hdirs, hdir⟩ := hblamed cases e hlenient hstrict
  exact ⟨⟨first, hone, (hkept first hone).1⟩, cases, e, dirs, hlenient, hstrict, hdirs, hdir⟩

end Suite

end ResourceModels
