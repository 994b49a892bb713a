import ResourceModels.Models
import ResourceModels.Proofs.Registry
import ResourceModels.Proofs.Sandbox

/-!
# What the generators look at and what they leave

A generator only looks at the files it is given, so stores with the same files give the same models.
The models that it leaves stand at paths in normal form, if its jobs edit the trees they are given.
-/

namespace ResourceModels

open FileStore (Edited Lawful PathsNormal)

section

variable {σ τ : Type} [FileStore σ] [FileStore τ] {files : σ} {files' : τ} {exclude : List String}

theorem Collect.resources_congr (h : FileStore.Agree files files') :
    resources files exclude = resources files' exclude := by
  simp only [resources, sources, h.paths, h.read]

theorem Collect.documents_congr (h : FileStore.Agree files files') :
    documents files exclude = documents files' exclude := by
  rw [documents, documents, resources_congr h]

variable {m : Type → Type} [Monad m] (run : Sandbox.Runner m) (image : String)

theorem Kcl.generate_congr (h : FileStore.Agree files files') :
    generate run image files exclude = generate run image files' exclude := by
  simp only [generate, stage, Collect.resources_congr h]

theorem Python.generate_congr (h : FileStore.Agree files files') :
    generate run image files exclude = generate run image files' exclude := by
  simp only [generate, stage, Collect.resources_congr h]

theorem Go.generate_congr (h : FileStore.Agree files files') :
    generate files exclude = generate files' exclude := by
  simp only [generate, Collect.documents_congr h]

theorem JsonSchema.generate_congr (h : FileStore.Agree files files') :
    generate files exclude = generate files' exclude := by
  simp only [generate, Collect.documents_congr h]

end

section

variable {σ : Type} [FileStore σ] {files files' : σ} {source target file : String}

theorem edited_of_write {path : String} {contents : ByteArray}
    (h : FileStore.write files path contents = .ok files') : Edited files files' :=
  Edited.start.write h

namespace Kcl

theorem copyEntry_edited {path : String} (h : copyEntry files source path = .ok files') :
    Edited files files' := by
  unfold copyEntry at h
  split at h
  · exact Edited.start.write (Outcome.mapError_eq_ok.mp h)
  · cases h
    exact .start

theorem loosen_edited {objectMeta : String} (h : loosen files objectMeta = .ok files') :
    Edited files files' := by
  unfold loosen at h
  split at h
  · obtain ⟨text, _, hwrite⟩ := Outcome.bind_eq_ok.mp h
    exact edited_of_write (Outcome.mapError_eq_ok.mp hwrite)
  · cases h
    exact .start

theorem removeFile_edited {path : String} (h : removeFile files path = .ok files') :
    Edited files files' := by
  unfold removeFile at h
  split at h
  · next hremove =>
    cases h
    exact Edited.start.remove hremove
  · cases h

theorem moveShared_edited (h : moveShared source target files file = .ok files') :
    Edited files files' := by
  unfold moveShared at h
  split at h
  · exact copyEntry_edited h
  · cases h
    exact .start

theorem moveKind_edited {shared : String} (h : moveKind shared target files file = .ok files') :
    Edited files files' := by
  unfold moveKind at h
  split at h
  · cases h
    exact .start
  · split at h
    · exact copyEntry_edited h
    · cases h
      exact .start

theorem arrange_edited (h : arrange files source target = .ok files') : Edited files files' := by
  simp only [arrange, Outcome.bind_eq_ok] at h
  obtain ⟨files₁, hmodule, files₂, hloosen, files₃, hremove, shared, _, files₄, hshared, kinds, _,
    hkinds⟩ := h
  have hstart : Edited files files₁ := Edited.foldlM (fun _ _ _ => copyEntry_edited) hmodule
  have hmoved : Edited files₃ files₄ := Edited.foldlM (fun _ _ _ => moveShared_edited) hshared
  have hend : Edited files₄ files' := Edited.foldlM (fun _ _ _ => moveKind_edited) hkinds
  exact (((hstart.trans (loosen_edited hloosen)).trans (removeFile_edited hremove)).trans
    hmoved).trans hend

end Kcl

namespace Python

theorem moveFile_edited (h : moveFile source target files file = .ok files') :
    Edited files files' := by
  unfold moveFile at h
  split at h
  · cases h
    exact .start
  · split at h
    · cases h
      exact .start
    · obtain ⟨bytes, _, hwrite⟩ := Outcome.bind_eq_ok.mp h
      exact edited_of_write (Outcome.mapError_eq_ok.mp hwrite)

theorem mark_edited {dir : String} (h : mark files dir = .ok files') : Edited files files' := by
  simp only [mark] at h
  split at h
  · cases h
    exact .start
  · exact edited_of_write (Outcome.mapError_eq_ok.mp h)

theorem arrange_edited (h : arrange files source target = .ok files') : Edited files files' := by
  simp only [arrange, Outcome.bind_eq_ok] at h
  obtain ⟨modules, _, files₁, hmove, hmark⟩ := h
  have hmoved : Edited files files₁ := Edited.foldlM (fun _ _ _ => moveFile_edited) hmove
  exact hmoved.trans (Edited.foldlM (fun _ _ _ => mark_edited) hmark)

theorem stageResource_edited {t t' : FileTree} {s : Staged}
    (h : stageResource t s = .ok t') : Edited t t' := by
  simp only [stageResource, Outcome.bind_eq_ok] at h
  obtain ⟨documents, _, hwrite⟩ := h
  exact Edited.foldlM (fun _ _ _ hstep => edited_of_write (Outcome.mapError_eq_ok.mp hstep)) hwrite

end Python

end

section

open Sandbox (Request Outcome Runner)

variable {ω σ : Type} [FileStore σ] {run : Runner (StateM ω)} {f : FileTree → Request → Outcome}
  {image : String} {files : σ} {exclude : List String} {t t' : FileTree}

namespace Kcl

theorem generate_eq {m : Type → Type} [Monad m] [LawfulMonad m] (run : Runner m) :
    generate run image files exclude =
      match stage files exclude with
      | .error e => pure (.error e)
      | .ok none => pure (.ok none)
      | .ok (some t) => Sandbox.gathered .sandbox collect <$> run t (request image) := by
  unfold generate
  cases stage files exclude with
  | error e => rfl
  | ok staged =>
    cases staged with
    | none => rfl
    | some t => exact (Sandbox.map_gathered (run t (request image))).symm

theorem generate_yields (h : Sandbox.Answers run f) :
    Yields (generate run image files exclude)
      (generate (m := Id) f image files exclude).run := by
  rw [generate_eq, generate_eq]
  cases stage files exclude with
  | error e => exact .pure _
  | ok staged =>
    cases staged with
    | none => exact .pure _
    | some t => exact (h.answer t (request image)).map _

theorem collect_pathsNormal (ht : PathsNormal t) (h : collect t = .ok t') : PathsNormal t' := by
  obtain ⟨arranged, harrange, hcopy⟩ := Outcome.bind_eq_ok.mp h
  have hnormal := (arrange_edited (Outcome.mapError_eq_ok.mp harrange)).pathsNormal ht
  split at hcopy
  · next models n hmodels =>
    cases hcopy
    exact FileStore.pathsNormal_copyDir hnormal FileTree.pathsNormal_empty hmodels
  · cases hcopy

theorem stage_pathsNormal (h : stage files exclude = .ok (some t)) : PathsNormal t := by
  obtain ⟨staged, _, hwrite⟩ := Outcome.bind_eq_ok.mp h
  split at hwrite
  · cases hwrite
  · obtain ⟨written, hwritten, hend⟩ := Outcome.bind_eq_ok.mp hwrite
    cases hend
    exact (Edited.foldlM (fun _ _ _ => edited_of_write)
      (Outcome.mapError_eq_ok.mp hwritten)).pathsNormal FileTree.pathsNormal_empty

theorem generate_pathsNormal (hf : ∀ t request, Edited t (f t request).tree)
    (h : (generate (m := Id) f image files exclude).run = .ok (some t)) : PathsNormal t := by
  rw [generate_eq] at h
  split at h
  · cases h
  · cases h
  · next staged hstage =>
    have hjob := (hf staged (request image)).pathsNormal (stage_pathsNormal hstage)
    exact collect_pathsNormal hjob (Sandbox.gathered_eq_ok h)

end Kcl

namespace Python

theorem generate_eq {m : Type → Type} [Monad m] [LawfulMonad m] (run : Runner m) :
    generate run image files exclude =
      match stage files exclude with
      | .error e => pure (.error e)
      | .ok t =>
        if FileStore.isEmpty t then pure (.ok none)
        else Sandbox.gathered .sandbox collect <$> run t (request image) := by
  unfold generate
  cases stage files exclude with
  | error e => rfl
  | ok t =>
    exact congrArg (fun job => if FileStore.isEmpty t then pure (.ok none) else job)
      (Sandbox.map_gathered (run t (request image))).symm

theorem generate_yields (h : Sandbox.Answers run f) :
    Yields (generate run image files exclude)
      (generate (m := Id) f image files exclude).run := by
  rw [generate_eq, generate_eq]
  cases stage files exclude with
  | error e => exact .pure _
  | ok t =>
    dsimp only
    split
    · exact .pure _
    · exact (h.answer t (request image)).map _

theorem collect_pathsNormal (ht : PathsNormal t) (h : collect t = .ok t') : PathsNormal t' := by
  obtain ⟨arranged, harrange, hcopy⟩ := Outcome.bind_eq_ok.mp h
  have hnormal := (arrange_edited (Outcome.mapError_eq_ok.mp harrange)).pathsNormal ht
  split at hcopy
  · next models n hmodels =>
    cases hcopy
    exact FileStore.pathsNormal_copyDir hnormal FileTree.pathsNormal_empty hmodels
  · cases hcopy

theorem stage_pathsNormal (h : stage files exclude = .ok t) : PathsNormal t := by
  obtain ⟨staged, _, hwrite⟩ := Outcome.bind_eq_ok.mp h
  exact (Edited.foldlM (fun _ _ _ => stageResource_edited) hwrite).pathsNormal
    FileTree.pathsNormal_empty

theorem generate_pathsNormal (hf : ∀ t request, Edited t (f t request).tree)
    (h : (generate (m := Id) f image files exclude).run = .ok (some t)) : PathsNormal t := by
  rw [generate_eq] at h
  split at h
  · cases h
  · next staged hstage =>
    split at h
    · cases h
    · have hjob := (hf staged (request image)).pathsNormal (stage_pathsNormal hstage)
      exact collect_pathsNormal hjob (Sandbox.gathered_eq_ok h)

end Python

theorem Go.generate_pathsNormal (h : generate files exclude = .ok (some t)) : PathsNormal t := by
  obtain ⟨extracts, _, hwrite⟩ := Outcome.bind_eq_ok.mp h
  split at hwrite
  · cases hwrite
  · simp only [Outcome.bind_eq_ok, Outcome.pure_eq_ok, Option.some.injEq] at hwrite
    obtain ⟨start, hstart, models, hmodels, rfl⟩ := hwrite
    have hfirst : Edited ∅ start := edited_of_write (Outcome.mapError_eq_ok.mp hstart)
    refine (hfirst.trans (Edited.foldlM ?_ hmodels)).pathsNormal FileTree.pathsNormal_empty
    intro s source u hsource
    obtain ⟨file, _, htext⟩ := Outcome.bind_eq_ok.mp hsource
    exact edited_of_write (Outcome.mapError_eq_ok.mp htext)

theorem JsonSchema.generate_pathsNormal (h : generate files exclude = .ok (some t)) :
    PathsNormal t := by
  obtain ⟨extracts, _, hwrite⟩ := Outcome.bind_eq_ok.mp h
  split at hwrite
  · cases hwrite
  · simp only [Outcome.bind_eq_ok, Outcome.pure_eq_ok, Option.some.injEq] at hwrite
    obtain ⟨models, hmodels, rfl⟩ := hwrite
    exact (Edited.foldlM (fun _ _ _ => edited_of_write)
      (Outcome.mapError_eq_ok.mp hmodels)).pathsNormal FileTree.pathsNormal_empty

end

end ResourceModels
