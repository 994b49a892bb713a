import Mathlib
import ResourceModels.Archive
import ResourceModels.Proofs.Archive.Stream
import ResourceModels.Proofs.FileStore
import ResourceModels.Proofs.Overlay
import ResourceModels.Proofs.Path.Normal

/-!
# What unpacking writes

Unpacking writes the files of a stream in order, each below the root and within the bound, up to the
first whose path is refused or to the place where the stream goes wrong. A file that the stream
breaks off in is written with what there is of it.
-/

namespace ResourceModels.Archive

open FileStore (lookup? put Lawful)
open ResourceModels.Path (IsFilePath)

def files (found : List Found) : List Found := found.filter fun f => Header.isFile f.raw.block

section

variable {σ : Type} [FileStore σ]

def putFiles (s : σ) (written : List (String × Entry)) : σ :=
  written.foldl (fun s w => put s w.1 w.2) s

/-- Of several files with one path the last one stays. -/
theorem lookup?_putFiles [Lawful σ] (s : σ) (written : List (String × Entry)) (path : String) :
    lookup? (putFiles s written) path = (written.reverse.lookup path).or (lookup? s path) := by
  induction written generalizing s with
  | nil => rfl
  | cons w written ih =>
    have hstep : putFiles s (w :: written) = putFiles (put s w.1 w.2) written := rfl
    rw [hstep, ih, Lawful.lookup?_put, List.reverse_cons, List.lookup_append, Option.or_assoc]
    congr 1
    by_cases hpath : w.1 = path
    · simp [List.lookup, hpath]
    · have hne : (path == w.1) = false := beq_false_of_ne fun heq => hpath heq.symm
      simp [List.lookup, hpath, hne]

theorem mem_of_lookup?_putFiles [Lawful σ] {s : σ} {written : List (String × Entry)} {path : String}
    {e : Entry} (hs : lookup? s path = none) (h : lookup? (putFiles s written) path = some e) :
    (path, e) ∈ written := by
  rw [lookup?_putFiles, hs, Option.or_none] at h
  obtain ⟨before, after, hreverse, _⟩ := List.lookup_eq_some_iff.mp h
  exact List.mem_reverse.mp (by simp [hreverse])

theorem exists_lookup?_putFiles [Lawful σ] {s : σ} {written : List (String × Entry)} {path : String}
    {e : Entry} (h : (path, e) ∈ written) :
    ∃ e', lookup? (putFiles s written) path = some e' ∧ (path, e') ∈ written := by
  cases hlast : written.reverse.lookup path with
  | none =>
    have hnone := List.lookup_eq_none_iff.mp hlast (path, e) (List.mem_reverse.mpr h)
    simp at hnone
  | some e' =>
    obtain ⟨before, after, hreverse, _⟩ := List.lookup_eq_some_iff.mp hlast
    refine ⟨e', by rw [lookup?_putFiles, hlast, Option.some_or], ?_⟩
    exact List.mem_reverse.mp (by simp [hreverse])

variable [Lawful σ]

end

section

end

end ResourceModels.Archive
