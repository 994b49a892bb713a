import Mathlib.Data.List.Forall2
import ResourceModels.Archive
import ResourceModels.Proofs.Dict
import ResourceModels.Proofs.Outcome

/-!
# Stores that cannot be told apart

Whatever is asked of a store is answered from the entries at its paths. Two stores, of whatever
kinds, that hold the same entries answer every question and every change alike, and hold the same
entries after the change.
-/

namespace ResourceModels.FileStore

/-- A store whose paths and counts are those of the entries it holds. -/
class Lawful (σ : Type) [FileStore σ] : Prop where
  lookup?_put : ∀ (s : σ) (key path : String) (e : Entry),
    lookup? (put s key e) path = if key = path then some e else lookup? s path
  lookup?_drop : ∀ (s : σ) (key path : String),
    lookup? (drop s key) path = if key = path then none else lookup? s path
  mem_paths : ∀ (s : σ) (path : String), path ∈ paths s ↔ (lookup? s path).isSome
  paths_pairwise : ∀ s : σ, (paths s).Pairwise (· < ·)
  hasBelow_eq : ∀ (s : σ) (dir : String), dir ≠ "" →
    hasBelow s dir = (paths s).any (Path.isBelow · dir)
  size_eq : ∀ s : σ, size s = (paths s).length

variable {σ τ ρ ρ' : Type} [FileStore σ] [FileStore τ] [FileStore ρ] [FileStore ρ']

def SameFiles (s : σ) (t : τ) : Prop := ∀ path, lookup? s path = lookup? t path

/-- All that can be asked of two stores has the same answer. -/
structure Agree (s : σ) (t : τ) : Prop where
  lookup? : ∀ path, lookup? s path = lookup? t path
  read : ∀ path, read s path = read t path
  readText : ∀ path, readText s path = readText t path
  isFile : ∀ path, isFile s path = isFile t path
  isDir : ∀ path, isDir s path = isDir t path
  hasPath : ∀ path, hasPath s path = hasPath t path
  filesUnder : ∀ dir, filesUnder s dir = filesUnder t dir
  dirs : dirs s = dirs t
  paths : paths s = paths t
  glob : ∀ pattern, glob s pattern = glob t pattern
  size : size s = size t

variable {s : σ} {t : τ}

theorem read_congr (h : SameFiles s t) (path : String) : read s path = read t path := by
  simp only [read, h _]

theorem isFile_congr (h : SameFiles s t) (path : String) : isFile s path = isFile t path := by
  simp only [isFile, h _]

section

variable [Lawful σ] [Lawful τ]

theorem paths_congr (h : SameFiles s t) : paths s = paths t := by
  refine Dict.keys_eq_of_mem (Lawful.paths_pairwise s) (Lawful.paths_pairwise t) fun path => ?_
  rw [Lawful.mem_paths, Lawful.mem_paths, h]

theorem isDir_congr (h : SameFiles s t) (path : String) : isDir s path = isDir t path := by
  unfold isDir
  split
  · rfl
  · next key hne _ =>
    have hkey : key ≠ "" := fun heq => hne heq
    rw [Lawful.hasBelow_eq s key hkey, Lawful.hasBelow_eq t key hkey, paths_congr h]
  · rfl

theorem filesUnder_congr (h : SameFiles s t) (dir : String) :
    filesUnder s dir = filesUnder t dir := by
  simp only [filesUnder, paths_congr h]

theorem dirs_congr (h : SameFiles s t) : dirs s = dirs t := by
  simp only [dirs, paths_congr h]

theorem agree_of_sameFiles (h : SameFiles s t) : Agree s t where
  lookup? := h
  read := read_congr h
  readText path := by simp only [readText, read_congr h]
  isFile := isFile_congr h
  isDir := isDir_congr h
  hasPath path := by simp only [hasPath, isFile_congr h, isDir_congr h]
  filesUnder := filesUnder_congr h
  dirs := dirs_congr h
  paths := paths_congr h
  glob pattern := by simp only [glob, paths_congr h, dirs_congr h]
  size := by rw [Lawful.size_eq, Lawful.size_eq, paths_congr h]

theorem put_congr (h : SameFiles s t) (key : String) (e : Entry) :
    SameFiles (put s key e) (put t key e) := by
  intro path
  rw [Lawful.lookup?_put, Lawful.lookup?_put, h]

theorem drop_congr (h : SameFiles s t) (key : String) : SameFiles (drop s key) (drop t key) := by
  intro path
  rw [Lawful.lookup?_drop, Lawful.lookup?_drop, h]

theorem foldl_drop_congr (h : SameFiles s t) (files : List String) :
    SameFiles (files.foldl drop s) (files.foldl drop t) := by
  induction files generalizing s t with
  | nil => exact h
  | cons file rest ih => exact ih (drop_congr h file)

theorem copyFiles_congr {src : ρ} {src' : ρ'} (hsrc : SameFiles src src') (h : SameFiles s t)
    (source target : String) (files : List String) :
    SameFiles (copyFiles src source s target files).1 (copyFiles src' source t target files).1 ∧
      (copyFiles src source s target files).2 = (copyFiles src' source t target files).2 := by
  induction files generalizing s t with
  | nil => exact ⟨h, rfl⟩
  | cons file rest ih =>
    simp only [copyFiles, hsrc file]
    split
    · next below e _ _ =>
      obtain ⟨hfiles, hcount⟩ := ih (put_congr h (Path.join target below) e)
      exact ⟨hfiles, by rw [hcount]⟩
    · exact ih h

theorem unpackMembers_congr (h : SameFiles s t) (options : Archive.UnpackOptions)
    (found : List Archive.Found) :
    SameFiles (Archive.unpackMembers options s found).1 (Archive.unpackMembers options t found).1 ∧
      (Archive.unpackMembers options s found).2 = (Archive.unpackMembers options t found).2 := by
  induction found generalizing s t with
  | nil => exact ⟨h, rfl⟩
  | cons f rest ih =>
    simp only [Archive.unpackMembers]
    split
    · exact ih h
    · split
      · exact ⟨h, rfl⟩
      · next path e _ =>
        obtain ⟨hfiles, hcount⟩ := ih (put_congr h path e)
        exact ⟨hfiles, by rw [hcount]⟩

end

/-- A change of a store. What is copied may come from a store of any kind. -/
inductive Change : Type 1
  | write (path : String) (contents : ByteArray)
  | writeEntry (path : String) (e : Entry)
  | remove (path : String)
  | removeDir (dir : String)
  | copyDir {ρ : Type} [FileStore ρ] (src : ρ) (source target : String)
  | unpack (options : Archive.UnpackOptions) (bytes : Archive.Bytes)

/-- What a change tells: nothing, whether a file was there, or a number of files. -/
inductive Answer
  | done
  | existed (b : Bool)
  | count (n : Nat)
deriving DecidableEq, Repr

/-- The store that a change leaves, which is the old one if the change failed. -/
def settled (s : σ) : Except FileError (σ × Answer) → σ × Except FileError Answer
  | .ok (s', a) => (s', .ok a)
  | .error cause => (s, .error cause)

def apply (s : σ) : Change → σ × Except FileError Answer
  | .write path contents => settled s ((write s path contents).map fun s' => (s', .done))
  | .writeEntry path e => settled s ((writeEntry s path e).map fun s' => (s', .done))
  | .remove path => settled s ((remove s path).map fun r => (r.1, .existed r.2))
  | .removeDir dir => settled s ((removeDir s dir).map fun r => (r.1, .count r.2))
  | @Change.copyDir _ _ src source target =>
    settled s ((copyDir src source s target).map fun r => (r.1, .count r.2))
  | .unpack options bytes =>
    let r := Archive.unpack options bytes s
    (r.1, r.2.map .count)

/-- The store and the answer after each of some changes. -/
def trace (s : σ) : List Change → List (σ × Except FileError Answer)
  | [] => []
  | c :: rest => apply s c :: trace (apply s c).1 rest

/-- One failure, or stores with the same files and one value beside them. -/
inductive SameResult {α : Type} : Except FileError (σ × α) → Except FileError (τ × α) → Prop
  | error (cause : FileError) : SameResult (.error cause) (.error cause)
  | ok {s : σ} {t : τ} (a : α) (h : SameFiles s t) : SameResult (.ok (s, a)) (.ok (t, a))

theorem SameResult.of_pair {α : Type} {x : σ × α} {y : τ × α} (h : SameFiles x.1 y.1)
    (ha : x.2 = y.2) : SameResult (.ok x) (.ok y) := by
  obtain ⟨s, a⟩ := x
  obtain ⟨t, b⟩ := y
  cases ha
  exact .ok a h

def SameOutcome (x : σ × Except FileError Answer) (y : τ × Except FileError Answer) : Prop :=
  x.2 = y.2 ∧ SameFiles x.1 y.1

theorem settled_congr {α : Type} (h : SameFiles s t) (answer : α → Answer)
    {x : Except FileError (σ × α)} {y : Except FileError (τ × α)} (hxy : SameResult x y) :
    SameOutcome (settled s (x.map fun r => (r.1, answer r.2)))
      (settled t (y.map fun r => (r.1, answer r.2))) := by
  cases hxy with
  | error cause => exact ⟨rfl, h⟩
  | ok a hafter => exact ⟨rfl, hafter⟩

section

variable [Lawful σ] [Lawful τ]

theorem writeEntry_congr (h : SameFiles s t) (path : String) (e : Entry) :
    SameOutcome (settled s ((writeEntry s path e).map fun s' => (s', .done)))
      (settled t ((writeEntry t path e).map fun t' => (t', .done))) := by
  unfold writeEntry
  cases normalizeFile path with
  | error cause => exact ⟨rfl, h⟩
  | ok key => exact ⟨rfl, put_congr h key e⟩

theorem remove_congr (h : SameFiles s t) (path : String) :
    SameResult (remove s path) (remove t path) := by
  unfold remove
  cases normalizeFile path with
  | error cause => exact .error cause
  | ok key =>
    simp only [bind, Except.bind, pure, Except.pure, h key]
    exact .ok _ (drop_congr h key)

theorem removeDir_congr (h : SameFiles s t) (dir : String) :
    SameResult (removeDir s dir) (removeDir t dir) := by
  unfold removeDir
  rw [filesUnder_congr h]
  cases filesUnder t dir with
  | error cause => exact .error cause
  | ok files => exact .ok _ (foldl_drop_congr h files)

theorem copyDir_congr {src : ρ} {src' : ρ'} (hsrc : SameFiles src src')
    (hpaths : paths src = paths src') (h : SameFiles s t) (source target : String) :
    SameResult (copyDir src source s target) (copyDir src' source t target) := by
  unfold copyDir
  simp only [filesUnder, hpaths]
  cases normalize source with
  | error cause => exact .error cause
  | ok source =>
    cases normalize target with
    | error cause => exact .error cause
    | ok target =>
      simp only [bind, Except.bind, pure, Except.pure]
      -- the listing brings the path to normal form once more
      cases normalize source with
      | error cause => exact .error cause
      | ok key =>
        obtain ⟨hsame, hcount⟩ := copyFiles_congr hsrc h source target
          ((paths src').filter (Path.isBelow · key))
        exact .of_pair hsame hcount

theorem unpack_congr (h : SameFiles s t) (options : Archive.UnpackOptions)
    (bytes : Archive.Bytes) :
    SameFiles (Archive.unpack options bytes s).1 (Archive.unpack options bytes t).1 ∧
      (Archive.unpack options bytes s).2 = (Archive.unpack options bytes t).2 := by
  obtain ⟨hfiles, hanswer⟩ := unpackMembers_congr h options (Archive.read bytes).1
  revert hfiles hanswer
  simp only [Archive.unpack]
  generalize Archive.unpackMembers options s (Archive.read bytes).1 = x
  generalize Archive.unpackMembers options t (Archive.read bytes).1 = y
  obtain ⟨s', result⟩ := x
  obtain ⟨t', result'⟩ := y
  rintro hfiles rfl
  cases result with
  | error cause => exact ⟨hfiles, rfl⟩
  | ok count => exact ⟨hfiles, rfl⟩

/-- Stores with the same files answer a change alike and have the same files after it. -/
theorem apply_congr (h : SameFiles s t) (c : Change) : SameOutcome (apply s c) (apply t c) := by
  cases c with
  | write path contents => exact writeEntry_congr h path _
  | writeEntry path e => exact writeEntry_congr h path e
  | remove path => exact settled_congr h _ (remove_congr h path)
  | removeDir dir => exact settled_congr h _ (removeDir_congr h dir)
  | copyDir src source target =>
    exact settled_congr h _ (copyDir_congr (fun _ => rfl) rfl h source target)
  | unpack options bytes =>
    obtain ⟨hfiles, hanswer⟩ := unpack_congr h options bytes
    exact ⟨congrArg (Except.map Answer.count) hanswer, hfiles⟩

theorem trace_congr (h : SameFiles s t) (changes : List Change) :
    List.Forall₂ SameOutcome (trace s changes) (trace t changes) := by
  induction changes generalizing s t with
  | nil => exact .nil
  | cons c rest ih =>
    have hstep := apply_congr h c
    exact .cons hstep (ih hstep.2)

end

end ResourceModels.FileStore
