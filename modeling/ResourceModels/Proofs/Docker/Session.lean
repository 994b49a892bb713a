import ResourceModels.Docker

/-!
# Sessions and their logs

Whoever answers the calls of a session, the session runs to its end, and its calls with their
answers are one of its logs. A session of two parts has the log of the first part and then that of
the second, which is left out if a step of the first part failed.
-/

namespace ResourceModels.Docker

open Sandbox (SandboxError)

abbrev Log := List (Call × Answer)

/-- Notes down a call with its answer, which may depend on all that was asked before. -/
def noted (answer : Log → Call → Answer) (c : Call) : StateM Log Answer := fun log =>
  (answer log c, log ++ [(c, answer log c)])

/-- The result of a session and its log. -/
def play {α : Type} (answer : Log → Call → Answer) (s : Session α) : α × Log :=
  s.interpret (noted answer) []

namespace Session

variable {α β : Type}

/-- A session has a log if its calls may be answered so, and then it gives one result. -/
inductive Runs : Session α → Log → α → Prop
  | done (a : α) : Runs (.done a) [] a
  | ask {c : Call} {next : Answer → Session α} {answer : Answer} {log : Log} {a : α}
      (h : Runs (next answer) log a) : Runs (.ask c next) ((c, answer) :: log) a

theorem exists_runs (answer : Log → Call → Answer) (s : Session α) (before : Log) :
    ∃ log, (s.interpret (noted answer) before).2 = before ++ log ∧
      s.Runs log (s.interpret (noted answer) before).1 := by
  -- every answer adds to the calls that the next one is given after
  induction s generalizing before with
  | done a => exact ⟨[], (List.append_nil _).symm, .done a⟩
  | ask c next ih =>
    obtain ⟨log, hlog, hruns⟩ := ih (answer before c) (before ++ [(c, answer before c)])
    exact ⟨(c, answer before c) :: log, by rw [List.append_cons]; exact hlog, .ask hruns⟩

theorem runs_play (answer : Log → Call → Answer) (s : Session α) :
    s.Runs (play answer s).2 (play answer s).1 := by
  obtain ⟨log, hlog, hruns⟩ := exists_runs answer s []
  rw [List.nil_append] at hlog
  exact hlog ▸ hruns

protected theorem id_map (x : Session α) : id <$> x = x := by
  induction x with
  | done a => rfl
  | ask c next ih => exact congrArg (ask c) (funext ih)

protected theorem bind_assoc {γ : Type} (x : Session α) (f : α → Session β) (g : β → Session γ) :
    x >>= f >>= g = x >>= fun a => f a >>= g := by
  induction x with
  | done a => rfl
  | ask c next ih => exact congrArg (ask c) (funext ih)

instance : LawfulMonad Session :=
  .mk' Session Session.id_map (fun _ _ => rfl) Session.bind_assoc

theorem runs_done {a b : α} {log : Log} (h : (pure a : Session α).Runs log b) :
    log = [] ∧ b = a := by
  cases h
  exact ⟨rfl, rfl⟩

theorem runs_bind {x : Session α} {f : α → Session β} {log : Log} {b : β}
    (h : (x >>= f).Runs log b) :
    ∃ first a second, log = first ++ second ∧ x.Runs first a ∧ (f a).Runs second b := by
  induction x generalizing log with
  | done a => exact ⟨[], a, log, rfl, .done a, h⟩
  | ask c next ih =>
    cases h with
    | ask h =>
      obtain ⟨first, a, second, rfl, hfirst, hsecond⟩ := ih _ h
      exact ⟨_ :: first, a, second, rfl, .ask hfirst, hsecond⟩

end Session

section

variable {α β : Type} {log : Log}

theorem Steps.runs_bind {x : Steps α} {f : α → Steps β} {r : Except SandboxError β}
    (h : (x >>= f).run.Runs log r) :
    (∃ e, r = .error e ∧ x.run.Runs log (.error e)) ∨
      ∃ first a second, log = first ++ second ∧ x.run.Runs first (.ok a) ∧
        (f a).run.Runs second r := by
  rw [ExceptT.run_bind] at h
  obtain ⟨first, result, second, rfl, hfirst, hsecond⟩ := Session.runs_bind h
  cases result with
  | error e =>
    obtain ⟨rfl, rfl⟩ := Session.runs_done hsecond
    exact .inl ⟨e, rfl, by rwa [List.append_nil]⟩
  | ok a => exact .inr ⟨first, a, second, rfl, hfirst, hsecond⟩

end

end ResourceModels.Docker

/-!
## Steps of a job

A step makes one call and judges how it ended. A call with a zero character in an argument is
refused before anybody is asked; then, and only then, a step that is taken has no answer.
-/

namespace ResourceModels.Docker

open Archive (Bytes)
open Sandbox (SandboxError Request)

def Call.Refused (c : Call) : Prop := ∃ argument ∈ c.arguments, '\x00' ∈ argument.toList

instance (c : Call) : Decidable c.Refused :=
  inferInstanceAs (Decidable (∃ argument ∈ c.arguments, '\x00' ∈ argument.toList))

def Call.refusal (c : Call) : SandboxError := .spawn c.command "nul byte found in provided data"

section

variable {α β : Type} {c : Call} {judge : Finished → Except SandboxError α} {log : Log}

def judged (c : Call) (judge : Finished → Except SandboxError α) : Answer → Except SandboxError α
  | .finished f => judge f
  | .unstarted cause => .error (.spawn c.command cause)
  | .late => .error (.timeout (c.limit.getD 0))

/-- The failure of a step. One that was not taken has none, unless its call would be refused. -/
def failureOf (c : Call) (judge : Finished → Except SandboxError α) :
    Option Answer → Option SandboxError
  | none => if c.Refused then some c.refusal else none
  | some answer =>
    match judged c judge answer with
    | .error e => some e
    | .ok _ => none

/-- The entry of a call in the log, if it was answered. -/
def entry (c : Call) (answer : Option Answer) : Log := answer.toList.map fun a => (c, a)

def step (c : Call) (judge : Finished → Except SandboxError α) : Steps α := do
  let f ← call c
  ExceptT.mk (pure (judge f))

theorem step_map (g : α → β) :
    g <$> step c judge = step c fun f => (judge f).map g := by
  rw [step, step, map_bind]
  congr 1
  funext f
  cases judge f <;> rfl

theorem step_bind (g : α → Except SandboxError β) :
    (step c judge >>= fun a => ExceptT.mk (pure (g a))) = step c fun f => (judge f).bind g := by
  rw [step, step, bind_assoc]
  congr 1
  funext f
  cases judge f <;> rfl

theorem call_runs {r : Except SandboxError Finished} (h : (call c).run.Runs log r) :
    ∃ answer, (answer = none ↔ c.Refused) ∧ log = entry c answer ∧
      r = answer.elim (.error c.refusal) (judged c .ok) := by
  have hrefused : (c.arguments.any fun a => a.toList.contains '\x00') = true ↔ c.Refused := by
    simp [Call.Refused]
  unfold call at h
  split at h
  · next hnul =>
    obtain ⟨rfl, rfl⟩ := Session.runs_done h
    exact ⟨none, iff_of_true rfl (hrefused.mp hnul), rfl, rfl⟩
  · next hnul =>
    cases h with
    | @ask _ _ answer _ _ h =>
      obtain ⟨rfl, rfl⟩ := Session.runs_done h
      refine ⟨some answer, iff_of_false (by simp) fun href => hnul (hrefused.mpr href), rfl, ?_⟩
      cases answer <;> rfl

/-- A step that is taken fails, or its call ended well and it gives a value. -/
theorem step_runs {r : Except SandboxError α} (h : (step c judge).run.Runs log r) :
    ∃ answer, (answer = none ↔ c.Refused) ∧ log = entry c answer ∧
      ((∃ e, r = .error e ∧ failureOf c judge answer = some e) ∨
        ∃ f v, r = .ok v ∧ answer = some (.finished f) ∧ judge f = .ok v) := by
  rcases Steps.runs_bind h with ⟨e, rfl, hcall⟩ | ⟨first, f, second, rfl, hcall, hjudge⟩
  · obtain ⟨answer, hanswer, hlog, hr⟩ := call_runs hcall
    refine ⟨answer, hanswer, hlog, .inl ⟨e, rfl, ?_⟩⟩
    cases answer with
    | none =>
      cases hr
      exact if_pos (hanswer.mp rfl)
    | some answer =>
      cases answer with
      | finished f => cases hr
      | unstarted cause => cases hr; rfl
      | late => cases hr; rfl
  · -- the call was answered by its end, so only the judge can still fail
    obtain ⟨answer, hanswer, rfl, hr⟩ := call_runs hcall
    obtain ⟨rfl, rfl⟩ := Session.runs_done hjudge
    refine ⟨answer, hanswer, List.append_nil _, ?_⟩
    cases answer with
    | none => cases hr
    | some answer =>
      cases answer with
      | finished f' =>
        cases hr
        cases hj : judge f with
        | error e => exact .inl ⟨e, rfl, by simp only [failureOf, judged, hj]⟩
        | ok v => exact .inr ⟨f, v, rfl, rfl, hj⟩
      | unstarted cause => cases hr
      | late => cases hr

/-- After a step that fails nothing is done; after one that succeeds the session goes on. -/
theorem step_bind_runs {next : α → Steps β} {r : Except SandboxError β}
    (h : (step c judge >>= next).run.Runs log r) :
    ∃ answer, (answer = none ↔ c.Refused) ∧
      ((∃ e, r = .error e ∧ log = entry c answer ∧ failureOf c judge answer = some e) ∨
        ∃ f v rest, log = entry c answer ++ rest ∧ answer = some (.finished f) ∧
          judge f = .ok v ∧ (next v).run.Runs rest r) := by
  rcases Steps.runs_bind h with ⟨e, rfl, hstep⟩ | ⟨first, v, rest, rfl, hstep, hnext⟩
  · obtain ⟨answer, hanswer, hlog, ⟨e', he', hfailure⟩ | ⟨f, v, hv, _⟩⟩ := step_runs hstep
    · cases he'
      exact ⟨answer, hanswer, .inl ⟨e, rfl, hlog, hfailure⟩⟩
    · cases hv
  · obtain ⟨answer, hanswer, hlog, ⟨e, he, _⟩ | ⟨f, w, hw, hended, hjudge⟩⟩ := step_runs hstep
    · cases he
    · cases hw
      exact ⟨answer, hanswer, .inr ⟨f, v, rest, hlog ▸ rfl, hended, hjudge, hnext⟩⟩

theorem failureOf_of_ok {f : Finished} {v : α} (h : judge f = .ok v) :
    failureOf c judge (some (.finished f)) = none := by
  simp only [failureOf, judged, h]

theorem failureOf_map (g : α → β) (answer : Option Answer) :
    failureOf c (fun f => (judge f).map g) answer = failureOf c judge answer := by
  cases answer with
  | none => rfl
  | some answer =>
    cases answer with
    | finished f =>
      simp only [failureOf, judged]
      cases judge f <;> rfl
    | unstarted cause => rfl
    | late => rfl

end

/-! ## Steps in a row -/

/-- The first of some failures, in the order of the steps. -/
def firstOf : List (Option SandboxError) → Except SandboxError Unit
  | [] => .ok ()
  | some e :: _ => .error e
  | none :: rest => firstOf rest

theorem firstOf_failureOf {α : Type} {c : Call} {judge : Finished → Except SandboxError α}
    {answer : Option Answer} {r : Except SandboxError α}
    (h : (∃ e, r = .error e ∧ failureOf c judge answer = some e) ∨
      ∃ f v, r = .ok v ∧ answer = some (.finished f) ∧ judge f = .ok v) :
    firstOf [failureOf c judge answer] = r.map fun _ => () := by
  rcases h with ⟨e, rfl, hfailure⟩ | ⟨f, v, rfl, rfl, hjudge⟩
  · rw [hfailure]
    rfl
  · rw [failureOf_of_ok hjudge]
    rfl

theorem firstOf_append (first second : List (Option SandboxError)) :
    firstOf (first ++ second) = firstFailure (firstOf first) (firstOf second) := by
  induction first with
  | nil => rfl
  | cons failure rest ih =>
    cases failure with
    | none => exact ih
    | some e => rfl

theorem firstOf_cons_error {failure : Option SandboxError} {e : SandboxError}
    (h : failure = some e) (rest : List (Option SandboxError)) :
    firstOf (failure :: rest) = .error e := by
  rw [h]
  rfl

theorem firstOf_cons_ok {failure : Option SandboxError} (h : failure = none)
    (rest : List (Option SandboxError)) : firstOf (failure :: rest) = firstOf rest := by
  rw [h]
  rfl

theorem firstOf_append_error {first : List (Option SandboxError)} {e : SandboxError}
    (h : firstOf first = .error e) (second : List (Option SandboxError)) :
    firstOf (first ++ second) = .error e := by
  rw [firstOf_append, h]
  rfl

theorem firstOf_append_ok {first : List (Option SandboxError)} (h : firstOf first = .ok ())
    (second : List (Option SandboxError)) : firstOf (first ++ second) = firstOf second := by
  rw [firstOf_append, h]
  rfl

/-- A call is made if every step before it went well, unless it is refused. -/
def Made (before : List (Option SandboxError)) (c : Call) (answer : Option Answer) : Prop :=
  answer.isSome ↔ firstOf before = .ok () ∧ ¬c.Refused

section

variable {c : Call} {answer : Option Answer} {before : List (Option SandboxError)}

theorem made_of_ok (hbefore : firstOf before = .ok ()) (hanswer : answer = none ↔ c.Refused) :
    Made before c answer := by
  rw [Made, ← hanswer]
  simp [hbefore, Option.isSome_iff_ne_none]

theorem made_of_error {e : SandboxError} (hbefore : firstOf before = .error e) :
    Made before c none := by
  simp [Made, hbefore]

theorem not_made {e : SandboxError} (hbefore : firstOf before = .error e)
    (h : Made before c answer) : answer = none := by
  simpa [Made, hbefore] using h

end

/-! ## The steps of a job -/

section

variable (options : Options) (r : Request) (image id : String) (input : Bytes)

def inspectCall : Call := { arguments := ["image", "inspect", image] }

def pullCall : Call := { arguments := ["pull", image] }

def createCall : Call where
  arguments :=
    ["create", "--label", options.label, "--workdir", options.inputPath, r.image] ++ r.command

def copyInCall : Call where
  arguments := ["cp", "-", id ++ ":" ++ options.inputPath]
  input := some input

def startCall : Call := { arguments := ["start", id] }

def waitCall : Call := { arguments := ["wait", id], limit := options.timeout }

def logsCall : Call := { arguments := ["logs", id] }

def copyOutCall : Call := { arguments := ["cp", id ++ ":" ++ options.outputPath, "-"] }

def removeCall : Call := { arguments := ["rm", "--force", "--volumes", id] }

def succeeding (c : Call) (f : Finished) : Except SandboxError Finished :=
  if f.status = 0 then .ok f else .error (.command c.command f.status (textOf f.errors))

def pulling (f : Finished) : Except SandboxError Unit :=
  if f.status = 0 then .ok () else .error (.pull image (textOf f.errors))

/-- The exit code of the command in a container, as the call that waits for it prints it. -/
def exitCode (f : Finished) : Except SandboxError Int :=
  match Text.signed? 64 (textOf f.output).toList with
  | some code => .ok code
  | none => .error (.exitCode (textOf f.output))

def waiting (f : Finished) : Except SandboxError Int :=
  (succeeding (waitCall options id) f).bind exitCode

/-- The failure of a command that ended with another code than zero. -/
def exiting (code : Int) (f : Finished) : Except SandboxError Bytes :=
  .error (.exit code (Text.trim (Text.lossy f.output ++ Text.lossy f.errors)))

theorem checked_eq (c : Call) : checked c = step c (succeeding c) := by
  rw [checked, step]
  congr 1
  funext f
  unfold succeeding
  split <;> rfl

theorem hasImage_eq :
    hasImage image = step (inspectCall image) fun f => .ok (decide (f.status = 0)) := rfl

theorem pull_eq : pull image = step (pullCall image) (pulling image) := by
  rw [pull, step]
  congr 1
  funext f
  unfold pulling
  by_cases h : f.status = 0
  · rw [if_pos h, if_neg (Classical.not_not.mpr h)]
    rfl
  · rw [if_neg h, if_pos h]
    rfl

theorem create_eq : create options r = step (createCall options r) fun f =>
    (succeeding (createCall options r) f).map fun f => textOf f.output := by
  rw [← step_map, ← checked_eq, map_eq_pure_bind]
  rfl

theorem wait_eq : wait options id = step (waitCall options id) (waiting options id) := by
  have hwait : waiting options id =
      fun f => (succeeding (waitCall options id) f).bind exitCode := rfl
  rw [hwait, ← step_bind, ← checked_eq, wait]
  refine bind_congr (m := Steps) fun f => ?_
  unfold exitCode
  cases Text.signed? 64 (textOf f.output).toList <;> rfl

theorem exit_eq (code : Int) :
    (logs id >>= fun text => (throw (.exit code text) : Steps Bytes)) =
      step (logsCall id) (exiting code) := by
  rw [logs, step, bind_assoc]
  congr 1

theorem discard_checked_eq (c : Call) :
    discard (checked c) = step c fun f => (succeeding c f).map fun _ => () := by
  rw [← step_map, ← checked_eq]
  rfl

theorem remove_eq : remove id = step (removeCall id) fun f =>
    (succeeding (removeCall id) f).map fun _ => () := discard_checked_eq _

end

end ResourceModels.Docker
