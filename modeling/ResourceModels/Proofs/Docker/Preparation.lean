import ResourceModels.Proofs.Docker.Session

/-!
# Before there is a container

A missing image is pulled, the tree is packed, and the container is created, unless one of these
failed before. Log and failure are known from the answers to the calls that were made.
-/

namespace ResourceModels.Docker

open Archive (Bytes)
open Sandbox (SandboxError Request Outcome)

def transferFailure {α : Type} : Except FileError α → Option SandboxError
  | .error cause => some (.transfer cause)
  | .ok _ => none

/-- What a call wrote that ended well. -/
def output? : Option Answer → Option Bytes
  | some (.finished f) => if f.status = 0 then some f.output else none
  | _ => none

/-- The name of a container, if it was created. -/
def created? (answer : Option Answer) : Option String := (output? answer).map textOf

theorem output?_of_failure {c : Call} {answer : Option Answer} {e : SandboxError}
    (h : failureOf c (succeeding c) answer = some e) : output? answer = none := by
  cases answer with
  | none => rfl
  | some answer =>
    cases answer with
    | finished f =>
      refine if_neg fun hstatus => ?_
      simp [failureOf, judged, succeeding, hstatus] at h
    | unstarted cause => rfl
    | late => rfl

theorem output?_of_status {f : Finished} (h : f.status = 0) :
    output? (some (.finished f)) = some f.output := if_pos h

theorem output?_of_status_ne {f : Finished} (h : f.status ≠ 0) :
    output? (some (.finished f)) = none := if_neg h

theorem failureOf_of_status {c : Call} {f : Finished} (h : f.status = 0) :
    failureOf c (succeeding c) (some (.finished f)) = none := failureOf_of_ok (if_pos h)

theorem succeeding_map_ok {α : Type} {c : Call} {f : Finished} {g : Finished → α} {v : α}
    (h : (succeeding c f).map g = .ok v) : f.status = 0 ∧ g f = v := by
  unfold succeeding at h
  split at h
  · next hstatus => exact ⟨hstatus, Except.ok.inj h⟩
  · cases h

/-- The answers to the calls up to the one that creates a container. -/
structure Preparation where
  inspect : Option Answer
  pull : Option Answer
  create : Option Answer

section

variable (options : Options) (h : Host) (t : FileTree) (r : Request)

/-- The archive of the tree of a job. -/
def packed : Except FileError Bytes :=
  Archive.pack h (packOptions options r.hostBase) r.baseFolder t

namespace Preparation

def failures (p : Preparation) : List (Option SandboxError) :=
  [failureOf (inspectCall r.image) (fun f => .ok (decide (f.status = 0))) p.inspect,
    failureOf (pullCall r.image) (pulling r.image) p.pull,
    transferFailure (packed options h t r),
    failureOf (createCall options r) (succeeding (createCall options r)) p.create]

def log (p : Preparation) : Log :=
  entry (inspectCall r.image) p.inspect ++ (entry (pullCall r.image) p.pull ++
    entry (createCall options r) p.create)

/-- Only a missing image is pulled, and a container is created when the tree is packed. -/
structure InOrder (p : Preparation) : Prop where
  inspect : Made [] (inspectCall r.image) p.inspect
  pull : p.pull.isSome ↔ ∃ f, p.inspect = some (.finished f) ∧ f.status ≠ 0
  create : Made ((p.failures options h t r).take 3) (createCall options r) p.create

end Preparation

variable {options h t r} {image : String} {log : Log}

theorem ensureImage_runs {result : Except SandboxError Unit}
    (hruns : (ensureImage image).run.Runs log result) :
    ∃ inspect pull, Made [] (inspectCall image) inspect ∧
      (pull.isSome ↔ ∃ f, inspect = some (.finished f) ∧ f.status ≠ 0) ∧
      log = entry (inspectCall image) inspect ++ entry (pullCall image) pull ∧
      firstOf [failureOf (inspectCall image) (fun f => .ok (decide (f.status = 0))) inspect,
        failureOf (pullCall image) (pulling image) pull] = result := by
  have hrefused : (pullCall image).Refused ↔ (inspectCall image).Refused := by
    simp [Call.Refused, pullCall, inspectCall]
  rw [ensureImage, hasImage_eq, pull_eq] at hruns
  obtain ⟨inspect, hinspect, ⟨e, rfl, rfl, hfailure⟩ |
    ⟨f, present, rest, rfl, rfl, hpresent, hnext⟩⟩ := step_bind_runs hruns
  · refine ⟨inspect, none, made_of_ok rfl hinspect, ?_, (List.append_nil _).symm, by
      rw [hfailure]; rfl⟩
    refine iff_of_false (by simp) ?_
    rintro ⟨f, rfl, _⟩
    simp [failureOf, judged] at hfailure
  · -- the image was good enough as an argument to be looked for
    have hreached : ¬(pullCall image).Refused := fun href => by
      simpa using hinspect.mpr (hrefused.mp href)
    obtain rfl : decide (f.status = 0) = present := Except.ok.inj hpresent
    by_cases hstatus : f.status = 0
    · rw [decide_eq_true hstatus] at hnext
      obtain ⟨rfl, rfl⟩ := Session.runs_done hnext
      refine ⟨_, none, made_of_ok rfl hinspect, ?_, rfl, ?_⟩
      · simp [hstatus]
      · simp [failureOf, judged, hreached, firstOf]
    · rw [decide_eq_false hstatus] at hnext
      obtain ⟨pull, hpull, rfl, hresult⟩ := step_runs hnext
      have hmade : pull ≠ none := fun hnone => hreached (hpull.mp hnone)
      refine ⟨_, pull, made_of_ok rfl hinspect, ?_, rfl, ?_⟩
      · simp [hstatus, Option.isSome_iff_ne_none, hmade]
      · refine ((firstOf_cons_ok rfl _).trans (firstOf_failureOf hresult)).trans ?_
        cases result <;> rfl

theorem create_runs {input : Bytes} {result : Except SandboxError (String × Bytes)}
    (hruns : (create options r >>= fun id => pure (id, input)).run.Runs log result) :
    ∃ answer, (answer = none ↔ (createCall options r).Refused) ∧
      log = entry (createCall options r) answer ∧
      firstOf [failureOf (createCall options r) (succeeding (createCall options r)) answer] =
        (result.map fun _ => ()) ∧
      created? answer = result.toOption.map (·.1) ∧ ∀ v, result = .ok v → v.2 = input := by
  rw [create_eq] at hruns
  obtain ⟨answer, hanswer, ⟨e, rfl, rfl, hfailure⟩ | ⟨f, id, rest, rfl, rfl, hjudge, hnext⟩⟩ :=
    step_bind_runs hruns
  · rw [failureOf_map] at hfailure
    exact ⟨answer, hanswer, rfl, firstOf_cons_error hfailure [],
      congrArg _ (output?_of_failure hfailure), fun v hv => by cases hv⟩
  · obtain ⟨rfl, rfl⟩ := Session.runs_done hnext
    obtain ⟨hstatus, rfl⟩ := succeeding_map_ok hjudge
    refine ⟨_, hanswer, List.append_nil _, firstOf_cons_ok (failureOf_of_status hstatus) [],
      congrArg _ (output?_of_status hstatus), fun v hv => ?_⟩
    cases hv
    rfl

theorem prepare_runs {result : Except SandboxError (String × Bytes)}
    (hruns : (prepare options h t r).run.Runs log result) :
    ∃ p : Preparation, p.InOrder options h t r ∧ log = p.log options r ∧
      firstOf (p.failures options h t r) = (result.map fun _ => ()) ∧
      created? p.create = result.toOption.map (·.1) ∧
      ∀ v, result = .ok v → packed options h t r = .ok v.2 := by
  unfold prepare at hruns
  rcases Steps.runs_bind hruns with ⟨e, rfl, himage⟩ | ⟨first, _, rest, rfl, himage, hnext⟩
  · obtain ⟨inspect, pull, hinspect, hpull, rfl, hfirst⟩ := ensureImage_runs himage
    have hbefore := firstOf_append_error hfirst [transferFailure (packed options h t r)]
    refine ⟨⟨inspect, pull, none⟩, ⟨hinspect, hpull, made_of_error hbefore⟩, ?_,
      firstOf_append_error hbefore [_], rfl, fun v hv => by cases hv⟩
    simp [Preparation.log, entry]
  · obtain ⟨inspect, pull, hinspect, hpull, rfl, hfirst⟩ := ensureImage_runs himage
    have hbefore := firstOf_append_ok hfirst [transferFailure (packed options h t r)]
    dsimp only at hnext
    cases hpacked : packed options h t r with
    | error cause =>
      rw [show Archive.pack h _ _ t = _ from hpacked] at hnext
      obtain ⟨rfl, rfl⟩ := Session.runs_done hnext
      have hfailed := hbefore.trans (by rw [hpacked]; rfl : _ = .error (.transfer cause))
      refine ⟨⟨inspect, pull, none⟩, ⟨hinspect, hpull, made_of_error hfailed⟩, ?_,
        firstOf_append_error hfailed [_], rfl, fun v hv => by cases hv⟩
      simp [Preparation.log, entry]
    | ok input =>
      rw [show Archive.pack h _ _ t = _ from hpacked] at hnext
      have hpassed := hbefore.trans (by rw [hpacked]; rfl : _ = .ok ())
      obtain ⟨answer, hanswer, rfl, hlast, hcreated, hinput⟩ := create_runs hnext
      refine ⟨⟨inspect, pull, answer⟩, ⟨hinspect, hpull, made_of_ok hpassed hanswer⟩, ?_,
        (firstOf_append_ok hpassed [_]).trans hlast, hcreated, fun v hv => ?_⟩
      · simp [Preparation.log]
      · rw [hinput v hv]

end

end ResourceModels.Docker
