import Mathlib.Data.List.Basic
import ResourceModels.Proofs.Docker.Preparation

/-!
# Containers left behind

The containers that carry the label are listed, and removed one after the other. A removal that
fails ends the sweep: the containers after it are left as they are, and its failure is that of the
sweep. So all of them are seen to exactly if no removal before the last one fails.
-/

namespace ResourceModels.Docker

open Sandbox (SandboxError)

def listCall (options : Options) : Call where
  arguments := ["ps", "-a", "-q", "--filter", "label=" ++ options.label]

/-- A container that was to be removed, and the answer to the call, if it was made. -/
structure Attempt where
  id : String
  answer : Option Answer

namespace Attempt

def failure (a : Attempt) : Option SandboxError :=
  failureOf (removeCall a.id) (succeeding (removeCall a.id)) a.answer

def log (a : Attempt) : Log := entry (removeCall a.id) a.answer

end Attempt

/-- The attempts to remove listed containers: each at most once and in order, up to the first that
fails. An attempt makes its call unless the name of the container holds a zero character. -/
structure Sweep (ids : List String) (attempts : List Attempt) : Prop where
  inOrder : attempts.map (·.id) <+: ids
  made : ∀ a ∈ attempts, a.answer = none ↔ '\x00' ∈ a.id.toList
  goesOn : ∀ a ∈ attempts.dropLast, a.failure = none
  stops : attempts.map (·.id) ≠ ids → ∃ a ∈ attempts.getLast?, a.failure ≠ none

/-- Every listed container is seen to, and none twice. -/
def AttemptsAll (ids : List String) (attempts : List Attempt) : Prop := attempts.map (·.id) = ids

/-- What a sweep that was to remove some containers gives. -/
def swept (ids : List String) (attempts : List Attempt) : Except SandboxError Nat :=
  (firstOf (attempts.map Attempt.failure)).map fun _ => ids.length

section

variable {ids : List String} {attempts : List Attempt} {a : Attempt} {log : Log}

theorem sweep_nil : Sweep [] [] :=
  ⟨List.nil_prefix, nofun, nofun, fun h => absurd rfl h⟩

theorem Sweep.failed (hmade : a.answer = none ↔ '\x00' ∈ a.id.toList) (h : a.failure ≠ none)
    (rest : List String) : Sweep (a.id :: rest) [a] where
  inOrder := by simp
  made := by simpa using hmade
  goesOn := nofun
  stops _ := ⟨a, rfl, h⟩

theorem Sweep.removed (hmade : a.answer = none ↔ '\x00' ∈ a.id.toList) (h : a.failure = none)
    (hrest : Sweep ids attempts) : Sweep (a.id :: ids) (a :: attempts) where
  inOrder := List.cons_prefix_cons.mpr ⟨rfl, hrest.inOrder⟩
  made := List.forall_mem_cons.mpr ⟨hmade, hrest.made⟩
  goesOn := by
    cases attempts with
    | nil => nofun
    | cons next more => exact List.forall_mem_cons.mpr ⟨h, hrest.goesOn⟩
  stops hne := by
    obtain ⟨last, hlast, hfailure⟩ := hrest.stops fun heq => hne (by simp [heq])
    exact ⟨last, by rw [List.getLast?_cons, Option.mem_def.mp hlast]; rfl, hfailure⟩

theorem swept_failed {e : SandboxError} (h : a.failure = some e) (ids : List String)
    (rest : List Attempt) : swept ids (a :: rest) = .error e := by
  rw [swept, List.map_cons, firstOf_cons_error h]
  rfl

theorem swept_removed (h : a.failure = none) :
    swept (a.id :: ids) (a :: attempts) = (swept ids attempts).map (· + 1) := by
  rw [swept, swept, List.map_cons, firstOf_cons_ok h]
  cases firstOf (attempts.map Attempt.failure) <;> rfl

/-- One attempt after the other is made, by induction on the containers. -/
theorem removeAll_runs {result : Except SandboxError Nat}
    (hruns : (removeAll ids).run.Runs log result) :
    ∃ attempts, Sweep ids attempts ∧ log = attempts.flatMap Attempt.log ∧
      result = swept ids attempts := by
  induction ids generalizing log result with
  | nil =>
    obtain ⟨rfl, rfl⟩ := Session.runs_done hruns
    exact ⟨[], sweep_nil, rfl, rfl⟩
  | cons id rest ih =>
    have hrefused : (removeCall id).Refused ↔ '\x00' ∈ id.toList := by
      simp [Call.Refused, removeCall]
    rw [removeAll, remove_eq] at hruns
    obtain ⟨answer, hanswer, ⟨e, rfl, rfl, hfailure⟩ | ⟨f, _, more, rfl, rfl, hjudge, hnext⟩⟩ :=
      step_bind_runs hruns
    · rw [failureOf_map] at hfailure
      have hfailed : (⟨id, answer⟩ : Attempt).failure = some e := hfailure
      have hsweep := Sweep.failed (a := ⟨id, answer⟩) (hanswer.trans hrefused) (by simp [hfailed])
      exact ⟨_, hsweep rest, (List.append_nil _).symm, (swept_failed hfailed _ _).symm⟩
    · have hremoved : (⟨id, some (.finished f)⟩ : Attempt).failure = none :=
        failureOf_of_status (succeeding_map_ok hjudge).1
      rcases Steps.runs_bind hnext with ⟨e, rfl, hrest⟩ | ⟨first, n, second, rfl, hrest, hlast⟩
      · obtain ⟨attempts, hsweep, rfl, hresult⟩ := ih hrest
        refine ⟨_ :: attempts, hsweep.removed (hanswer.trans hrefused) hremoved, rfl, ?_⟩
        rw [swept_removed hremoved, ← hresult]
        rfl
      · obtain ⟨attempts, hsweep, rfl, hresult⟩ := ih hrest
        obtain ⟨rfl, rfl⟩ := Session.runs_done hlast
        refine ⟨_ :: attempts, hsweep.removed (hanswer.trans hrefused) hremoved, ?_, ?_⟩
        · rw [List.append_nil]
          rfl
        · rw [swept_removed hremoved, ← hresult]
          rfl

/-- A failure keeps containers from being removed unless it is that of the last one. -/
theorem Sweep.attemptsAll_iff (h : Sweep ids attempts) : AttemptsAll ids attempts ↔
    ∀ i a, attempts[i]? = some a → a.failure ≠ none → i + 1 = ids.length := by
  constructor
  · intro hall i a ha hfailure
    have hlength : attempts.length = ids.length := by rw [← hall, List.length_map]
    obtain ⟨hi, rfl⟩ := List.getElem?_eq_some_iff.mp ha
    by_contra hlast
    have hmem : attempts[i] ∈ attempts.dropLast := by
      rw [List.dropLast_eq_take, List.mem_take_iff_getElem]
      exact ⟨i, by omega, rfl⟩
    exact hfailure (h.goesOn _ hmem)
  · intro hlast
    by_contra hsome
    obtain ⟨a, ha, hfailure⟩ := h.stops hsome
    rw [Option.mem_def, List.getLast?_eq_getElem?] at ha
    have hlength := hlast _ a ha hfailure
    have hne : attempts.length ≠ 0 := by
      rintro hnil
      simp [List.length_eq_zero_iff.mp hnil] at ha
    exact hsome (h.inOrder.eq_of_length (by rw [List.length_map]; omega))

theorem reap_runs {options : Options} {result : Except SandboxError Nat}
    (hruns : (reap options).run.Runs log result) :
    ∃ listing, (listing = none ↔ (listCall options).Refused) ∧
      match output? listing with
      | none => log = entry (listCall options) listing ∧
          ∃ e, failureOf (listCall options) (succeeding (listCall options)) listing = some e ∧
            result = .error e
      | some output => ∃ attempts, Sweep (listed output) attempts ∧
          log = entry (listCall options) listing ++ attempts.flatMap Attempt.log ∧
          result = swept (listed output) attempts := by
  have hreap : reap options = step (listCall options) (succeeding (listCall options)) >>=
      fun f => removeAll (listed f.output) := by
    rw [← checked_eq]
    rfl
  rw [hreap] at hruns
  obtain ⟨listing, hlisting, ⟨e, rfl, rfl, hfailure⟩ | ⟨f, g, rest, rfl, rfl, hjudge, hnext⟩⟩ :=
    step_bind_runs hruns
  · refine ⟨listing, hlisting, ?_⟩
    rw [output?_of_failure hfailure]
    exact ⟨rfl, e, hfailure, rfl⟩
  · obtain ⟨hstatus, rfl⟩ : f.status = 0 ∧ id f = g :=
      succeeding_map_ok (c := listCall options) (by rw [hjudge]; rfl)
    obtain ⟨attempts, hsweep, rfl, rfl⟩ := removeAll_runs hnext
    refine ⟨_, hlisting, ?_⟩
    rw [output?_of_status hstatus]
    exact ⟨attempts, hsweep, rfl, rfl⟩

end

/-- Whatever is answered, the containers are listed, and those of the listing are removed one after
the other up to the first failure. The sweep gives their number if all were removed, and else that
failure; no container is left unattempted exactly if no removal before the last one fails. -/
theorem reap_attemptsAll_iff (options : Options) (answer : Log → Call → Answer) :
    ∃ listing, (listing = none ↔ '\x00' ∈ options.label.toList) ∧
      match output? listing with
      | none => (play answer (reap options).run).2 = entry (listCall options) listing ∧
          ∃ e, failureOf (listCall options) (succeeding (listCall options)) listing = some e ∧
            (play answer (reap options).run).1 = .error e
      | some output => ∃ attempts, Sweep (listed output) attempts ∧
          (play answer (reap options).run).2 =
            entry (listCall options) listing ++ attempts.flatMap Attempt.log ∧
          (play answer (reap options).run).1 = swept (listed output) attempts ∧
          (AttemptsAll (listed output) attempts ↔
            ∀ i a, attempts[i]? = some a → a.failure ≠ none → i + 1 = (listed output).length) := by
  obtain ⟨listing, hlisting, hreaped⟩ := reap_runs (Session.runs_play answer (reap options).run)
  have hrefused : (listCall options).Refused ↔ '\x00' ∈ options.label.toList := by
    simp [Call.Refused, listCall]
  refine ⟨listing, hlisting.trans hrefused, ?_⟩
  cases houtput : output? listing with
  | none =>
    rw [houtput] at hreaped
    exact hreaped
  | some output =>
    rw [houtput] at hreaped
    obtain ⟨attempts, hsweep, hlog, hresult⟩ := hreaped
    exact ⟨attempts, hsweep, hlog, hresult, hsweep.attemptsAll_iff⟩

/-- An engine with two containers, of which it does not remove the one that is busy. -/
def busy (name : String) (_ : Log) (c : Call) : Answer :=
  .finished ⟨if c = removeCall name then 1 else 0,
    if c.command = "ps" then "a\nb\n".toUTF8.toList else [], []⟩

def sweepCalls (name : String) : List Call := (play (busy name) (reap {}).run).2.map (·.1)

example : sweepCalls "b" = [listCall {}, removeCall "a", removeCall "b"] := by decide +kernel

theorem busy_leavesBehind :
    (play (busy "a") (reap {}).run).2.head? =
      some (listCall {}, .finished ⟨0, "a\nb\n".toUTF8.toList, []⟩) ∧
    listed "a\nb\n".toUTF8.toList = ["a", "b"] ∧ removeCall "b" ∉ sweepCalls "a" := by
  decide +kernel

end ResourceModels.Docker
