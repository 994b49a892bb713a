import ResourceModels.Proofs.FileStore.Invariant
import ResourceModels.Proofs.Path.Climbing

/-!
# Stores that are edited file by file

Whoever writes and removes single files of a store whose paths are in normal form leaves such a
store, however many steps it takes.
-/

namespace ResourceModels.FileStore

variable {σ : Type} [FileStore σ] {s t u : σ}

/-- The stores that come from a store by writing and removing files. -/
inductive Edited (s : σ) : σ → Prop
  | start : Edited s s
  | write {t u : σ} {path : String} {e : Entry} (h : Edited s t)
      (hwrite : writeEntry t path e = .ok u) : Edited s u
  | remove {t u : σ} {path : String} {existed : Bool} (h : Edited s t)
      (hremove : FileStore.remove t path = .ok (u, existed)) : Edited s u

theorem Edited.trans (h : Edited s t) (h' : Edited t u) : Edited s u := by
  induction h' with
  | start => exact h
  | write _ hwrite ih => exact ih.write hwrite
  | remove _ hremove ih => exact ih.remove hremove

theorem Edited.foldlM {ε α : Type} {step : σ → α → Except ε σ}
    (hstep : ∀ s x t, step s x = .ok t → Edited s t) {xs : List α}
    (h : xs.foldlM step s = .ok t) : Edited s t := by
  induction xs generalizing s with
  | nil =>
    cases h
    exact .start
  | cons x rest ih =>
    rw [List.foldlM_cons, Outcome.bind_eq_ok] at h
    obtain ⟨next, hnext, hrest⟩ := h
    exact (hstep s x next hnext).trans (ih hrest)

variable [Lawful σ]

theorem Edited.pathsNormal (h : Edited s t) (hs : PathsNormal s) : PathsNormal t := by
  induction h with
  | start => exact hs
  | write _ hwrite ih =>
    simp only [writeEntry, Outcome.bind_eq_ok, Outcome.pure_eq_ok] at hwrite
    obtain ⟨key, hkey, rfl⟩ := hwrite
    exact pathsNormal_put ih (Path.isFilePath_of_normalizeFile hkey) _
  | remove _ hremove ih =>
    simp only [FileStore.remove, Outcome.bind_eq_ok, Outcome.pure_eq_ok, Prod.mk.injEq] at hremove
    obtain ⟨key, _, rfl, _⟩ := hremove
    exact pathsNormal_drop ih key

/-- Files that are copied from paths in normal form stand at paths in normal form. -/
theorem pathsNormal_copyDir {ρ : Type} [FileStore ρ] {src : ρ} {source target : String} {n : Nat}
    (hsrc : PathsNormal src) (hs : PathsNormal s)
    (h : copyDir src source s target = .ok (t, n)) : PathsNormal t := by
  have happly : (apply s (.copyDir src source target)).1 = t := by
    rw [apply, h]
    rfl
  rw [← happly]
  have hchanges : ∀ c ∈ [Change.copyDir src source target], c.FromNormal := by
    intro c hc
    rw [List.mem_singleton.mp hc]
    exact hsrc
  exact pathsNormal_trace hs hchanges _ List.mem_cons_self

end ResourceModels.FileStore

/-!
## Paths of copied files

Copying a directory adds the paths of its files below the target, and no others.
-/

namespace ResourceModels.FileStore

open ResourceModels.Path (IsNormal)

variable {σ τ : Type} [FileStore σ] [FileStore τ] {src : σ} {dst : τ} {source target path : String}

theorem copyDir_eq (hsource : IsNormal source) (htarget : IsNormal target) :
    copyDir src source dst target =
      .ok (copyFiles src source dst target ((paths src).filter (Path.isBelow · source))) := by
  have hkey : normalize source = .ok source := Path.normalize_eq_ok.mpr hsource
  have hplace : normalize target = .ok target := Path.normalize_eq_ok.mpr htarget
  simp only [copyDir, filesUnder, hkey, hplace, bind, Except.bind, pure, Except.pure]

variable [Lawful τ]

theorem mem_paths_put {key : String} {e : Entry} :
    path ∈ paths (put dst key e) ↔ path = key ∨ path ∈ paths dst := by
  rw [Lawful.mem_paths, Lawful.lookup?_put, Lawful.mem_paths, eq_comm (a := path)]
  by_cases h : key = path <;> simp [h]

theorem mem_paths_copyFiles {files : List String} :
    path ∈ paths (copyFiles src source dst target files).1 ↔
      path ∈ paths dst ∨ ∃ file ∈ files, (lookup? src file).isSome ∧
        ∃ rest, Path.below? file source = some rest ∧ path = Path.join target rest := by
  induction files generalizing dst with
  | nil => simp [copyFiles]
  | cons file files ih =>
    simp only [copyFiles, List.exists_mem_cons_iff]
    split
    · next rest e hbelow he =>
      rw [ih, mem_paths_put, hbelow, he]
      simp only [Option.isSome_some, true_and, Option.some.injEq, exists_eq_left']
      rw [or_assoc, or_left_comm]
    · next hnone =>
      rw [ih]
      refine or_congr_right (or_iff_right ?_).symm
      rintro ⟨hsome, rest, hbelow, -⟩
      obtain ⟨e, he⟩ := Option.isSome_iff_exists.mp hsome
      exact hnone rest e hbelow he

/-- Between directories in normal form copying does not fail, and what it adds are the files below
the one, moved below the other. -/
theorem exists_copyDir [Lawful σ] (src : σ) (dst : τ) (hsource : IsNormal source)
    (htarget : IsNormal target) :
    ∃ t n, copyDir src source dst target = .ok (t, n) ∧ ∀ path, path ∈ paths t ↔
      path ∈ paths dst ∨ ∃ file ∈ paths src, ∃ rest,
        Path.below? file source = some rest ∧ path = Path.join target rest := by
  refine ⟨_, _, copyDir_eq hsource htarget, fun path => ?_⟩
  rw [mem_paths_copyFiles]
  refine or_congr_right (exists_congr fun file => ?_)
  rw [List.mem_filter, and_assoc]
  refine and_congr_right fun hfile => ?_
  have hsome := (Lawful.mem_paths src file).mp hfile
  constructor
  · rintro ⟨-, -, hrest⟩
    exact hrest
  · rintro ⟨rest, hrest⟩
    exact ⟨by rw [Path.isBelow, hrest.1]; rfl, hsome, rest, hrest⟩

end ResourceModels.FileStore

/-!
## Files that are put one after the other

A file may be put in any case, or only where none is yet. After some files were put, the last one
that was put in any case stands at its path, and without such a one the file that was there before,
or else the first one that was put there. So putting the same files once more changes nothing.
-/

namespace ResourceModels.FileStore

/-- A file to be put, over another one only if it overwrites. -/
structure Put where
  key : String
  entry : Entry
  overwrites : Bool

section

variable {σ : Type} [FileStore σ]

def Put.run (s : σ) (p : Put) : σ :=
  if p.overwrites = false ∧ (lookup? s p.key).isSome then s else put s p.key p.entry

/-- The last file that is put at a path in any case. -/
def overwritten? (puts : List Put) (path : String) : Option Entry :=
  (puts.reverse.find? fun p => p.overwrites && p.key = path).map (·.entry)

/-- The first file that is put at a path if none is there. -/
def supplied? (puts : List Put) (path : String) : Option Entry :=
  (puts.find? fun p => !p.overwrites && p.key = path).map (·.entry)

variable {s t : σ} {p : Put} {puts rest : List Put} {path : String}

theorem overwritten?_cons : overwritten? (p :: rest) path =
    (overwritten? rest path).or (if p.overwrites ∧ p.key = path then some p.entry else none) := by
  simp only [overwritten?, List.reverse_cons, List.find?_append, Option.map_or, List.find?_singleton,
    Bool.and_eq_true, decide_eq_true_eq]
  split <;> rfl

theorem supplied?_cons : supplied? (p :: rest) path =
    if p.overwrites = false ∧ p.key = path then some p.entry else supplied? rest path := by
  simp only [supplied?, List.find?_cons]
  cases p.overwrites <;> by_cases hkey : p.key = path <;> simp [hkey]

theorem supplied?_append : supplied? (puts ++ rest) path =
    (supplied? puts path).or (supplied? rest path) := by
  simp only [supplied?, List.find?_append, Option.map_or]

theorem overwritten?_eq_none (h : ∀ p ∈ puts, p.overwrites = true → p.key ≠ path) :
    overwritten? puts path = none := by
  rw [overwritten?, Option.map_eq_none_iff, List.find?_eq_none]
  intro p hp hput
  rw [Bool.and_eq_true, decide_eq_true_eq] at hput
  exact h p (List.mem_reverse.mp hp) hput.1 hput.2

theorem supplied?_eq_none (h : ∀ p ∈ puts, p.overwrites = false → p.key ≠ path) :
    supplied? puts path = none := by
  rw [supplied?, Option.map_eq_none_iff, List.find?_eq_none]
  intro p hp hput
  rw [Bool.and_eq_true, decide_eq_true_eq, Bool.not_eq_true'] at hput
  exact h p hp hput.1 hput.2

theorem exists_of_supplied? (h : (supplied? puts path).isSome) :
    ∃ p ∈ puts, p.overwrites = false ∧ p.key = path := by
  by_contra hnone
  rw [supplied?_eq_none fun p hp hadds hkey => hnone ⟨p, hp, hadds, hkey⟩] at h
  cases h

theorem isSome_supplied? (hp : p ∈ puts) (hadds : p.overwrites = false) (hkey : p.key = path) :
    (supplied? puts path).isSome := by
  rw [supplied?, Option.isSome_map, List.find?_isSome]
  exact ⟨p, hp, by simp [hadds, hkey]⟩

/-- Files that are put only where none is do not change a store that has them. -/
theorem run_of_present (h : ∀ p ∈ puts, p.overwrites = false ∧ (lookup? s p.key).isSome) :
    puts.foldl Put.run s = s := by
  induction puts with
  | nil => rfl
  | cons p rest ih =>
    obtain ⟨hp, hrest⟩ := List.forall_mem_cons.mp h
    rw [List.foldl_cons, Put.run, if_pos hp, ih hrest]

variable [Lawful σ]

theorem lookup?_run_put (s : σ) (p : Put) (path : String) : lookup? (p.run s) path =
    if p.key = path then if p.overwrites then some p.entry else (lookup? s path).or (some p.entry)
    else lookup? s path := by
  unfold Put.run
  by_cases hkey : p.key = path
  · subst hkey
    cases hoverwrites : p.overwrites <;> cases hs : lookup? s p.key <;>
      simp [hs, Lawful.lookup?_put]
  · split <;> simp [hkey, Lawful.lookup?_put]

theorem lookup?_run (s : σ) (puts : List Put) (path : String) :
    lookup? (puts.foldl Put.run s) path =
      (overwritten? puts path).or ((lookup? s path).or (supplied? puts path)) := by
  induction puts generalizing s with
  | nil => simp [overwritten?, supplied?]
  | cons p rest ih =>
    rw [List.foldl_cons, ih, lookup?_run_put, overwritten?_cons, supplied?_cons]
    by_cases hkey : p.key = path
    · cases p.overwrites <;> cases overwritten? rest path <;> cases lookup? s path <;> simp [hkey]
    · simp [hkey]

theorem lookup?_run_of_forall_ne (h : ∀ p ∈ puts, p.key ≠ path) :
    lookup? (puts.foldl Put.run s) path = lookup? s path := by
  rw [lookup?_run, overwritten?_eq_none fun p hp _ => h p hp,
    supplied?_eq_none fun p hp _ => h p hp, Option.none_or, Option.or_none]

theorem pathsNormal_run (h : ∀ p ∈ puts, ResourceModels.Path.IsFilePath p.key)
    (hs : PathsNormal s) : PathsNormal (puts.foldl Put.run s) := by
  induction puts generalizing s with
  | nil => exact hs
  | cons p rest ih =>
    obtain ⟨hp, hrest⟩ := List.forall_mem_cons.mp h
    refine ih hrest ?_
    unfold Put.run
    split
    · exact hs
    · exact pathsNormal_put hs hp p.entry

/-- Where the files that were put still stand, putting them once more changes nothing. -/
theorem sameFiles_run (h : ∀ path, (lookup? (puts.foldl Put.run s) path).isSome →
      lookup? t path = lookup? (puts.foldl Put.run s) path) :
    SameFiles (puts.foldl Put.run t) t := by
  intro path
  have hpath := h path
  rw [lookup?_run] at hpath
  rw [lookup?_run]
  cases hover : overwritten? puts path with
  | some e =>
    rw [hover, Option.some_or] at hpath
    rw [Option.some_or, hpath rfl]
  | none =>
    cases ht : lookup? t path with
    | some e => rfl
    | none =>
      -- what would be put now would have been put before
      cases hsupply : supplied? puts path with
      | none => rfl
      | some e =>
        rw [hover, ht, hsupply] at hpath
        cases hs : lookup? s path <;> simp [hs] at hpath

end

end ResourceModels.FileStore
