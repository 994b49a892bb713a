import ResourceModels.Proofs.Docker.Preparation

/-!
# The work of a container

The tree is copied in, the container is started and waited for, and its tree is copied out. A
command that ended with another code than zero is a failure, with what it wrote instead of the tree.
-/

namespace ResourceModels.Docker

open Archive (Bytes)
open Sandbox (SandboxError Outcome)

/-- The exit code of the command in a container, if the container was seen to end. -/
def exitCode? (answer : Option Answer) : Option Int :=
  (output? answer).bind fun output => Text.signed? 64 (textOf output).toList

/-- The answers to the calls that name a container, but for the one that removes it. -/
structure Container where
  copyIn : Option Answer
  start : Option Answer
  wait : Option Answer
  logs : Option Answer
  copyOut : Option Answer

section

variable (options : Options) (id : String) (input : Bytes) (t : FileTree)

namespace Container

def logsFailure (c : Container) : Option SandboxError :=
  match exitCode? c.wait with
  | some code => if code = 0 then none else failureOf (logsCall id) (exiting code) c.logs
  | none => none

def failures (c : Container) : List (Option SandboxError) :=
  [failureOf (copyInCall options id input) (succeeding (copyInCall options id input)) c.copyIn,
    failureOf (startCall id) (succeeding (startCall id)) c.start,
    failureOf (waitCall options id) (waiting options id) c.wait,
    c.logsFailure id,
    failureOf (copyOutCall options id) (succeeding (copyOutCall options id)) c.copyOut]

def log (c : Container) : Log :=
  entry (copyInCall options id input) c.copyIn ++ (entry (startCall id) c.start ++
    (entry (waitCall options id) c.wait ++ (entry (logsCall id) c.logs ++
      entry (copyOutCall options id) c.copyOut)))

/-- What a command wrote is asked for if it ended with another code than zero. -/
structure InOrder (c : Container) : Prop where
  copyIn : Made [] (copyInCall options id input) c.copyIn
  start : Made ((c.failures options id input).take 1) (startCall id) c.start
  wait : Made ((c.failures options id input).take 2) (waitCall options id) c.wait
  logs : c.logs.isSome ↔ ∃ code, exitCode? c.wait = some code ∧ code ≠ 0
  copyOut : Made ((c.failures options id input).take 4) (copyOutCall options id) c.copyOut

/-- The calls up to the one that waits, and the exit code that they end with. -/
structure Worked (c : Container) (result : Except SandboxError Int) : Prop where
  copyIn : Made [] (copyInCall options id input) c.copyIn
  start : Made ((c.failures options id input).take 1) (startCall id) c.start
  wait : Made ((c.failures options id input).take 2) (waitCall options id) c.wait
  exitCode_eq : exitCode? c.wait = result.toOption
  firstOf_eq : firstOf ((c.failures options id input).take 3) = result.map fun _ => ()

/-- The archive that was copied out of a container whose command ended well. -/
def copied? (c : Container) : Option Bytes :=
  if exitCode? c.wait = some 0 then output? c.copyOut else none

/-- The tree with what was copied out. -/
def unpacked (c : Container) : FileTree × Except FileError Nat :=
  match c.copied? with
  | some bytes => Archive.unpack ⟨options.stripStart, options.maxFileSize⟩ bytes t
  | none => (t, .ok 0)

end Container

/-- Has a container do its work, and waits for the exit code. -/
def work : Steps Int := do
  step (copyInCall options id input) fun f =>
    (succeeding (copyInCall options id input) f).map fun _ => ()
  step (startCall id) fun f => (succeeding (startCall id) f).map fun _ => ()
  step (waitCall options id) (waiting options id)

def finish (code : Int) : Steps Bytes :=
  if code ≠ 0 then step (logsCall id) (exiting code)
  else step (copyOutCall options id) fun f =>
    (succeeding (copyOutCall options id) f).map fun f => f.output

theorem produce_eq : produce options id input = work options id input >>= finish options id := by
  rw [work, ← discard_checked_eq, ← discard_checked_eq, ← wait_eq, produce, bind_assoc]
  refine bind_congr (m := Steps) fun _ => ?_
  rw [bind_assoc]
  refine bind_congr (m := Steps) fun _ => bind_congr (m := Steps) fun code => ?_
  unfold finish
  split
  · rw [← exit_eq]
    exact bind_congr (m := Steps) fun _ => rfl
  · rw [← step_map, ← checked_eq, map_eq_pure_bind]
    rfl

variable {options id input t} {log : Log}

theorem exitCode_toOption (f : Finished) :
    (exitCode f).toOption = Text.signed? 64 (textOf f.output).toList := by
  unfold exitCode
  split
  · next hcode => rw [hcode, Except.toOption]
  · next hcode => rw [hcode, Except.toOption]

theorem waiting_toOption (options : Options) (id : String) (f : Finished) :
    (waiting options id f).toOption = exitCode? (some (.finished f)) := by
  by_cases h : f.status = 0
  · have hwaiting : waiting options id f = exitCode f := by
      rw [waiting, succeeding, if_pos h, Except.bind]
    rw [hwaiting, exitCode_toOption, exitCode?, output?_of_status h, Option.bind_some]
  · rw [waiting, succeeding, if_neg h, exitCode?, output?_of_status_ne h]
    rfl

theorem exitCode?_of_failure {answer : Option Answer} {e : SandboxError}
    (h : failureOf (waitCall options id) (waiting options id) answer = some e) :
    exitCode? answer = none := by
  cases answer with
  | none => rfl
  | some answer =>
    cases answer with
    | finished f =>
      rw [← waiting_toOption options id]
      simp only [failureOf, judged] at h
      cases hwait : waiting options id f with
      | error e => rfl
      | ok code => simp [hwait] at h
    | unstarted cause => rfl
    | late => rfl

theorem work_runs {result : Except SandboxError Int}
    (hruns : (work options id input).run.Runs log result) :
    ∃ copyIn start wait, let c : Container := ⟨copyIn, start, wait, none, none⟩
      c.Worked options id input result ∧ log = c.log options id input := by
  obtain ⟨copyIn, hcopyIn, ⟨e, rfl, rfl, hfailure⟩ | ⟨f, _, rest, rfl, rfl, hjudge, hnext⟩⟩ :=
    step_bind_runs hruns
  · rw [failureOf_map] at hfailure
    have hfailed := firstOf_cons_error hfailure
    refine ⟨copyIn, none, none, ⟨made_of_ok rfl hcopyIn, made_of_error (hfailed []),
      made_of_error (hfailed [_]), rfl, hfailed [_, _]⟩, ?_⟩
    simp [Container.log, entry]
  · obtain ⟨hstatus, _⟩ := succeeding_map_ok hjudge
    have hin := firstOf_cons_ok (failureOf_of_status (c := copyInCall options id input) hstatus)
    obtain ⟨start, hstart, ⟨e, rfl, rfl, hfailure⟩ | ⟨g, _, rest, rfl, rfl, hjudge, hnext⟩⟩ :=
      step_bind_runs hnext
    · rw [failureOf_map] at hfailure
      have hfailed (rest) := (hin _).trans (firstOf_cons_error hfailure rest)
      refine ⟨_, start, none, ⟨made_of_ok rfl hcopyIn, made_of_ok (hin []) hstart,
        made_of_error (hfailed []), rfl, hfailed [_]⟩, ?_⟩
      simp [Container.log, entry]
    · obtain ⟨hstatus, _⟩ := succeeding_map_ok hjudge
      have hstarted (rest) := (hin _).trans
        (firstOf_cons_ok (failureOf_of_status (c := startCall id) hstatus) rest)
      obtain ⟨wait, hwait, rfl, hresult⟩ := step_runs hnext
      refine ⟨_, _, wait, ⟨made_of_ok rfl hcopyIn, made_of_ok (hin []) hstart,
        made_of_ok (hstarted []) hwait, ?_, (hstarted _).trans (firstOf_failureOf hresult)⟩, ?_⟩
      · rcases hresult with ⟨e, rfl, hfailure⟩ | ⟨k, code, rfl, rfl, hjudge⟩
        · exact exitCode?_of_failure hfailure
        · rw [← waiting_toOption options id, hjudge]
      · simp [Container.log, entry]

namespace Container

variable {c : Container}

theorem Worked.failed {e : SandboxError} (h : c.Worked options id input (.error e))
    (hlogs : c.logs = none) (hcopyOut : c.copyOut = none) :
    c.InOrder options id input ∧ firstOf (c.failures options id input) = .error e ∧
      c.copied? = none := by
  have hexit : exitCode? c.wait = none := h.exitCode_eq
  refine ⟨⟨h.copyIn, h.start, h.wait, ?_, ?_⟩, firstOf_append_error h.firstOf_eq [_, _], ?_⟩
  · simp [hlogs, hexit]
  · rw [hcopyOut]
    exact made_of_error (firstOf_append_error h.firstOf_eq [_])
  · simp [copied?, hexit]

theorem Worked.logged {code : Int} {e : SandboxError} (h : c.Worked options id input (.ok code))
    (hcode : code ≠ 0) (hlogs : c.logs = none ↔ (logsCall id).Refused)
    (hfailure : failureOf (logsCall id) (exiting code) c.logs = some e)
    (hcopyOut : c.copyOut = none) :
    c.InOrder options id input ∧ firstOf (c.failures options id input) = .error e ∧
      c.copied? = none := by
  have hexit : exitCode? c.wait = some code := h.exitCode_eq
  have hwaited : c.wait.isSome := by
    cases hwait : c.wait with
    | none => rw [hwait] at hexit; cases hexit
    | some answer => rfl
  -- the name of the container was good enough for the call before
  have hasked : ¬(logsCall id).Refused := by
    simpa [Call.Refused, logsCall, waitCall] using (h.wait.mp hwaited).2
  have hended : c.logsFailure id = some e := by
    simpa [logsFailure, hexit, hcode] using hfailure
  have hfailed (rest) := (firstOf_append_ok h.firstOf_eq _).trans (firstOf_cons_error hended rest)
  refine ⟨⟨h.copyIn, h.start, h.wait, ?_, ?_⟩, hfailed [_], ?_⟩
  · simp [hexit, hcode, Option.isSome_iff_ne_none, hlogs, hasked]
  · rw [hcopyOut]
    exact made_of_error (hfailed [])
  · simp [copied?, hexit, hcode]

theorem Worked.copied (h : c.Worked options id input (.ok 0)) (hlogs : c.logs = none)
    (hcopyOut : c.copyOut = none ↔ (copyOutCall options id).Refused) :
    c.InOrder options id input ∧ firstOf (c.failures options id input) =
      firstOf [failureOf (copyOutCall options id) (succeeding (copyOutCall options id)) c.copyOut] ∧
      c.copied? = output? c.copyOut := by
  have hexit : exitCode? c.wait = some 0 := h.exitCode_eq
  have hended : c.logsFailure id = none := by simp [logsFailure, hexit]
  have hpassed (rest) := (firstOf_append_ok h.firstOf_eq _).trans (firstOf_cons_ok hended rest)
  refine ⟨⟨h.copyIn, h.start, h.wait, ?_, made_of_ok (hpassed []) hcopyOut⟩, hpassed [_], ?_⟩
  · simp [hlogs, hexit]
  · exact if_pos hexit

end Container

theorem produce_runs {result : Except SandboxError Bytes}
    (hruns : (produce options id input).run.Runs log result) :
    ∃ c : Container, c.InOrder options id input ∧ log = c.log options id input ∧
      firstOf (c.failures options id input) = (result.map fun _ => ()) ∧
      c.copied? = result.toOption := by
  rw [produce_eq] at hruns
  rcases Steps.runs_bind hruns with ⟨e, rfl, hwork⟩ | ⟨first, code, rest, rfl, hwork, hnext⟩
  · obtain ⟨copyIn, start, wait, hworked, rfl⟩ := work_runs hwork
    obtain ⟨horder, hfirst, hcopied⟩ := hworked.failed rfl rfl
    exact ⟨_, horder, rfl, hfirst, hcopied⟩
  · obtain ⟨copyIn, start, wait, hworked, rfl⟩ := work_runs hwork
    unfold finish at hnext
    split at hnext
    · next hcode =>
      obtain ⟨logs, hlogs, rfl, ⟨e, rfl, hfailure⟩ | ⟨f, v, _, _, hjudge⟩⟩ := step_runs hnext
      · -- `Worked` does not look at the calls after the one that waits
        have hworked : Container.Worked options id input ⟨copyIn, start, wait, logs, none⟩
            (.ok code) := ⟨hworked.1, hworked.2, hworked.3, hworked.4, hworked.5⟩
        obtain ⟨horder, hfirst, hcopied⟩ := hworked.logged hcode hlogs hfailure rfl
        refine ⟨_, horder, ?_, hfirst, hcopied⟩
        simp [Container.log, entry]
      · cases hjudge
    · next hcode =>
      obtain rfl : code = 0 := Classical.not_not.mp hcode
      obtain ⟨copyOut, hcopyOut, rfl, hresult⟩ := step_runs hnext
      have hworked : Container.Worked options id input ⟨copyIn, start, wait, none, copyOut⟩
          (.ok 0) := ⟨hworked.1, hworked.2, hworked.3, hworked.4, hworked.5⟩
      obtain ⟨horder, hfirst, hcopied⟩ := hworked.copied rfl hcopyOut
      refine ⟨_, horder, ?_, hfirst.trans ?_, hcopied.trans ?_⟩
      · simp [Container.log, entry]
      · rw [← failureOf_map]
        exact firstOf_failureOf hresult
      · rcases hresult with ⟨e, rfl, hfailure⟩ | ⟨k, bytes, rfl, rfl, hjudge⟩
        · rw [failureOf_map] at hfailure
          exact output?_of_failure hfailure
        · obtain ⟨hstatus, rfl⟩ := succeeding_map_ok hjudge
          exact output?_of_status hstatus

theorem runContainer_runs {outcome : Outcome}
    (hruns : (runContainer options id input t).Runs log outcome) :
    ∃ c : Container, c.InOrder options id input ∧ log = c.log options id input ∧
      outcome.tree = (c.unpacked options t).1 ∧
      outcome.result = firstOf (c.failures options id input ++
        [transferFailure (c.unpacked options t).2]) := by
  obtain ⟨first, result, rest, rfl, hproduce, hnext⟩ := Session.runs_bind hruns
  obtain ⟨c, horder, rfl, hfirst, hcopied⟩ := produce_runs hproduce
  refine ⟨c, horder, ?_⟩
  cases result with
  | error e =>
    obtain ⟨rfl, rfl⟩ := Session.runs_done hnext
    have hcopied : c.copied? = none := hcopied
    rw [Container.unpacked, hcopied, firstOf_append_error hfirst]
    exact ⟨List.append_nil _, rfl, rfl⟩
  | ok bytes =>
    have hcopied : c.copied? = some bytes := hcopied
    rw [Container.unpacked, hcopied, firstOf_append_ok hfirst]
    dsimp only at hnext ⊢
    generalize Archive.unpack ⟨options.stripStart, options.maxFileSize⟩ bytes t = after at hnext ⊢
    obtain ⟨rfl, rfl⟩ := Session.runs_done hnext
    refine ⟨List.append_nil _, rfl, ?_⟩
    cases after.2 <;> rfl

/-- Nothing can be asked about a container whose name holds a zero character. -/
theorem Container.InOrder.of_zero {c : Container} (horder : c.InOrder options id input)
    (hid : '\x00' ∈ id.toList) : c.log options id input = [] ∧
      firstOf (c.failures options id input) = .error (copyInCall options id input).refusal := by
  have hrefused : (copyInCall options id input).Refused := by
    simp [Call.Refused, copyInCall, hid]
  obtain ⟨copyIn, start, wait, logs, copyOut⟩ := c
  obtain rfl : copyIn = none := by
    simpa [hrefused] using horder.copyIn.mp
  have hfailed := firstOf_cons_error (if_pos hrefused : failureOf (copyInCall options id input)
    (succeeding (copyInCall options id input)) none = _)
  obtain rfl : start = none := not_made (hfailed []) horder.start
  obtain rfl : wait = none := not_made (hfailed [_]) horder.wait
  obtain rfl : copyOut = none := not_made (hfailed [_, _, _]) horder.copyOut
  obtain rfl : logs = none := by simpa [exitCode?, output?] using horder.logs
  exact ⟨rfl, hfailed [_, _, _, _]⟩

end

end ResourceModels.Docker

/-!
## The life of a job

Whatever is answered, a container that was created is removed, once and last, and a job that came to
no container removes none. The failure of a job is that of its first step that failed, and its tree
is as before unless the command ended well and its tree was copied out.
-/

namespace ResourceModels.Docker

open Archive (Bytes)
open Sandbox (SandboxError Request Outcome)

section

variable (options : Options) (h : Host) (t : FileTree) (r : Request)

structure Uncreated (p : Preparation) (log : Log) (outcome : Outcome) : Prop where
  log_eq : log = p.log options r
  unremoved : ∀ made ∈ log, made.1.command ≠ "rm"
  result_eq : ∃ e, firstOf (p.failures options h t r) = .error e ∧ outcome.result = .error e
  tree_eq : outcome.tree = t

/-- A container whose name holds a zero character stays, since no argument of a call can hold it. -/
structure Created (p : Preparation) (id : String) (input : Bytes) (c : Container)
    (removal : Option Answer) (log : Log) (outcome : Outcome) : Prop where
  packed_eq : packed options h t r = .ok input
  inOrder : c.InOrder options id input
  log_eq : log = p.log options r ++ c.log options id input ++ entry (removeCall id) removal
  removed : removal.isSome ↔ '\x00' ∉ id.toList
  once : ∀ made ∈ p.log options r ++ c.log options id input, made.1.command ≠ "rm"
  zeroNamed : '\x00' ∈ id.toList → log = p.log options r ∧
    outcome.result = .error (copyInCall options id input).refusal
  result_eq : outcome.result = firstOf (p.failures options h t r ++ (c.failures options id input ++
    [transferFailure (c.unpacked options t).2,
      failureOf (removeCall id) (succeeding (removeCall id)) removal]))
  tree_eq : outcome.tree = (c.unpacked options t).1

variable {options h t r} {log : Log} {outcome : Outcome} {id : String} {input : Bytes}

theorem mem_entry {c : Call} {answer : Option Answer} {made : Call × Answer}
    (hmade : made ∈ entry c answer) : made.1 = c := by
  obtain ⟨_, _, rfl⟩ := List.mem_map.mp hmade
  rfl

theorem Preparation.unremoved (p : Preparation) :
    ∀ made ∈ p.log options r, made.1.command ≠ "rm" := by
  intro made hmade
  simp only [Preparation.log, List.mem_append] at hmade
  rcases hmade with hmade | hmade | hmade <;> rw [mem_entry hmade]
  all_goals simp [Call.command, inspectCall, pullCall, createCall]

theorem Container.unremoved (c : Container) :
    ∀ made ∈ c.log options id input, made.1.command ≠ "rm" := by
  intro made hmade
  simp only [Container.log, List.mem_append] at hmade
  rcases hmade with hmade | hmade | hmade | hmade | hmade <;> rw [mem_entry hmade]
  all_goals simp [Call.command, copyInCall, startCall, waitCall, logsCall, copyOutCall]

theorem runner_runs (hruns : (runner options h t r).Runs log outcome) :
    ∃ p : Preparation, p.InOrder options h t r ∧
      match created? p.create with
      | none => Uncreated options h t r p log outcome
      | some id => ∃ input c removal, Created options h t r p id input c removal log outcome := by
  obtain ⟨first, result, rest, rfl, hprepare, hnext⟩ := Session.runs_bind hruns
  obtain ⟨p, horder, rfl, hfirst, hcreated, hinput⟩ := prepare_runs hprepare
  refine ⟨p, horder, ?_⟩
  rw [hcreated]
  rcases result with e | ⟨id, input⟩
  · obtain ⟨rfl, rfl⟩ := Session.runs_done hnext
    rw [List.append_nil]
    exact ⟨rfl, p.unremoved, ⟨e, hfirst, rfl⟩, rfl⟩
  · obtain ⟨_, ran, _, rfl, hcontainer, hleft⟩ := Session.runs_bind hnext
    obtain ⟨c, hinOrder, rfl, htree, hresult⟩ := runContainer_runs hcontainer
    obtain ⟨_, removal, _, rfl, hremove, hlast⟩ := Session.runs_bind hleft
    rw [remove_eq] at hremove
    obtain ⟨answer, hanswer, rfl, hremoval⟩ := step_runs hremove
    obtain ⟨rfl, rfl⟩ := Session.runs_done hlast
    have hrefused : (removeCall id).Refused ↔ '\x00' ∈ id.toList := by
      simp [Call.Refused, removeCall]
    rw [hrefused] at hanswer
    have hremoved := firstOf_failureOf hremoval
    rw [failureOf_map] at hremoved
    refine ⟨input, c, answer, ⟨hinput _ rfl, hinOrder, ?_, ?_, ?_, ?_, ?_, htree⟩⟩
    · simp
    · rw [← hanswer]
      exact Option.isSome_iff_ne_none
    · exact fun made hmade =>
        (List.mem_append.mp hmade).elim (p.unremoved made) (c.unremoved made)
    · intro hid
      obtain ⟨hlog, hfailed⟩ := hinOrder.of_zero hid
      refine ⟨?_, ?_⟩
      · simp [hlog, hanswer.mpr hid, entry]
      · simp only [hresult, firstOf_append_error hfailed]
        rfl
    · -- the removal is the last step, so its failure counts if no other step failed
      rw [firstOf_append_ok hfirst, List.append_cons, firstOf_append, ← hresult, hremoved]
      cases removal <;> rfl

end

theorem runner_lifecycle (options : Options) (h : Host) (t : FileTree) (r : Request)
    (answer : Log → Call → Answer) :
    ∃ p : Preparation, p.InOrder options h t r ∧
      match created? p.create with
      | none => Uncreated options h t r p (play answer (runner options h t r)).2
          (play answer (runner options h t r)).1
      | some id => ∃ input c removal, Created options h t r p id input c removal
          (play answer (runner options h t r)).2 (play answer (runner options h t r)).1 :=
  runner_runs (Session.runs_play answer _)

/-- An engine where every call ends well. It writes the given name for each new container. -/
def naming (name : String) (_ : Log) (c : Call) : Answer :=
  .finished ⟨0, if c.command = "create" then name.toUTF8.toList else
    if c.command = "wait" then "0\n".toUTF8.toList else [], []⟩

def trueJob : Request where
  image := "img:1"
  command := ["sh", "-c", "true"]
  baseFolder := "workdir"

/-- The calls of a job over a tree of one file. -/
def namedCalls (name : String) : Log :=
  (play (naming name) (runner {} ∅ (.ofEntries [("a.yaml", ⟨⟨#[120]⟩, 0o644, none⟩)]) trueJob)).2

example : (namedCalls "c1\n").map (fun made => made.1.command) =
    ["image", "create", "cp", "start", "wait", "cp", "rm"] := by
  decide +kernel

theorem zeroNamed_unremoved :
    (∃ made ∈ namedCalls "a\x00b\n", made.1.command = "create" ∧
      created? (some made.2) = some "a\x00b") ∧
    ∀ made ∈ namedCalls "a\x00b\n", made.1 ≠ removeCall "a\x00b" := by
  decide +kernel

end ResourceModels.Docker
