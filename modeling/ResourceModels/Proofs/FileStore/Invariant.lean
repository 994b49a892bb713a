import ResourceModels.Proofs.FileStore
import ResourceModels.Proofs.Path.Directory

/-!
# What changes of a store keep

Every change is made of entries put and dropped, and what it puts goes to paths in normal form,
where those it copies from are in that form. What each entry put and each entry dropped keeps is
kept by any changes. So a store of files at paths in normal form stays one.
-/

namespace ResourceModels.FileStore

open ResourceModels.Path (IsNormal IsFilePath)

variable {σ ρ : Type} [FileStore σ] [FileStore ρ]

def PathsNormal (s : σ) : Prop := ∀ path ∈ paths s, IsFilePath path

theorem read_eq_ok {files : σ} {path : String} (hpath : IsFilePath path) {bytes : ByteArray} :
    read files path = .ok bytes ↔ ∃ e, lookup? files path = some e ∧ e.contents = bytes := by
  simp only [read, Path.normalizeFile_of_isFilePath hpath, Outcome.bind_eq_ok, Except.ok.injEq,
    exists_eq_left']
  cases lookup? files path with
  | none => simp [throw, throwThe, MonadExceptOf.throw]
  | some e => simp [pure, Except.pure]

theorem readText_eq_ok {files : σ} {path text : String} (hpath : IsFilePath path) :
    readText files path = .ok text ↔
      ∃ e, lookup? files path = some e ∧ Text.decode? e.contents = some text := by
  simp only [readText, Outcome.bind_eq_ok, read_eq_ok hpath]
  constructor
  · rintro ⟨_, ⟨e, he, rfl⟩, htext⟩
    refine ⟨e, he, ?_⟩
    split at htext
    · next found hfound => rw [hfound, Outcome.pure_eq_ok.mp htext]
    · cases htext
  · rintro ⟨e, he, htext⟩
    exact ⟨e.contents, ⟨e, he, rfl⟩, by rw [htext]; rfl⟩

/-- A change that copies only from a store whose paths are in normal form. -/
def Change.FromNormal : Change → Prop
  | @Change.copyDir _ _ src _ _ => PathsNormal src
  | _ => True

theorem settled_keeps {α : Type} {s : α} {P : α → Prop} {x : Except FileError (α × Answer)}
    (h : P s) (hx : ∀ r, x = .ok r → P r.1) : P (settled s x).1 := by
  cases x with
  | error cause => exact h
  | ok r => exact hx r rfl

section

-- `Q` is what makes the paths of copied files normal, where an invariant asks for that.
variable {s : σ} {P : σ → Prop} {Q : Prop}
  (hput : ∀ s key e, (Q → IsFilePath key) → P s → P (put s key e))
  (hdrop : ∀ s key, P s → P (drop s key))

include hput

theorem writeEntry_keeps {path : String} {e : Entry} {s' : σ} (h : P s)
    (hw : writeEntry s path e = .ok s') : P s' := by
  simp only [writeEntry, Outcome.bind_eq_ok, Outcome.pure_eq_ok] at hw
  obtain ⟨key, hkey, rfl⟩ := hw
  exact hput s key e (fun _ => Path.isFilePath_of_normalizeFile hkey) h

/-- Below a directory in normal form, files move to paths in normal form. -/
theorem copyFiles_keeps {src : ρ} {source target : String} (htarget : IsNormal target)
    {files : List String} (hfiles : Q → ∀ file ∈ files, IsFilePath file) (h : P s) :
    P (copyFiles src source s target files).1 := by
  induction files generalizing s with
  | nil => exact h
  | cons file files ih =>
    have hrest : Q → ∀ f ∈ files, IsFilePath f := fun hq f hf => hfiles hq f (List.mem_cons_of_mem _ hf)
    simp only [copyFiles]
    split
    · next rest e hbelow _ =>
      have hkey : Q → IsFilePath (Path.join target rest) := fun hq =>
        Path.isFilePath_join htarget (Path.isFilePath_below? (hfiles hq file List.mem_cons_self) hbelow)
      exact ih hrest (hput s _ e hkey h)
    · exact ih hrest h

theorem unpackMembers_keeps (options : Archive.UnpackOptions) (found : List Archive.Found)
    (h : P s) : P (Archive.unpackMembers options s found).1 := by
  induction found generalizing s with
  | nil => exact h
  | cons f found ih =>
    simp only [Archive.unpackMembers]
    split
    · exact ih h
    split
    · exact h
    · next key e hfile =>
      simp only [Archive.memberFile, Outcome.bind_eq_ok, Outcome.pure_eq_ok] at hfile
      obtain ⟨key', hkey, hpair⟩ := hfile
      cases hpair
      exact ih (hput s _ _ (fun _ => Path.isFilePath_of_normalizeFile hkey) h)

include hdrop

omit hput in
theorem foldl_drop_keeps (files : List String) (h : P s) : P (files.foldl drop s) := by
  induction files generalizing s with
  | nil => exact h
  | cons file rest ih => exact ih (hdrop s file h)

/-- Every change is made of entries put and dropped. -/
theorem apply_keeps {c : Change} (hc : Q → c.FromNormal) (h : P s) : P (apply s c).1 := by
  cases c with
  | write path contents =>
    refine settled_keeps h fun r hr => ?_
    obtain ⟨s', hs', rfl⟩ := Outcome.map_eq_ok.mp hr
    exact writeEntry_keeps hput h hs'
  | writeEntry path e =>
    refine settled_keeps h fun r hr => ?_
    obtain ⟨s', hs', rfl⟩ := Outcome.map_eq_ok.mp hr
    exact writeEntry_keeps hput h hs'
  | remove path =>
    refine settled_keeps h fun r hr => ?_
    obtain ⟨removed, hremoved, rfl⟩ := Outcome.map_eq_ok.mp hr
    simp only [remove, Outcome.bind_eq_ok, Outcome.pure_eq_ok] at hremoved
    obtain ⟨key, _, rfl⟩ := hremoved
    exact hdrop s key h
  | removeDir dir =>
    refine settled_keeps h fun r hr => ?_
    obtain ⟨removed, hremoved, rfl⟩ := Outcome.map_eq_ok.mp hr
    simp only [removeDir, Outcome.bind_eq_ok, Outcome.pure_eq_ok] at hremoved
    obtain ⟨files, _, rfl⟩ := hremoved
    exact foldl_drop_keeps hdrop files h
  | copyDir src source target =>
    refine settled_keeps h fun r hr => ?_
    obtain ⟨copied, hcopied, rfl⟩ := Outcome.map_eq_ok.mp hr
    simp only [copyDir, filesUnder, Outcome.bind_eq_ok, Outcome.pure_eq_ok] at hcopied
    obtain ⟨source, _, target, htarget, files, ⟨key, _, rfl⟩, rfl⟩ := hcopied
    have hfiles : Q → ∀ file ∈ (paths src).filter (Path.isBelow · key), IsFilePath file :=
      fun hq file hfile => hc hq file (List.mem_of_mem_filter hfile)
    exact copyFiles_keeps hput (Path.isNormal_of_normalize htarget) hfiles h
  | unpack options bytes =>
    have hmembers := unpackMembers_keeps hput options (Archive.read bytes).1 h
    revert hmembers
    simp only [apply, Archive.unpack]
    rcases Archive.unpackMembers options s (Archive.read bytes).1 with ⟨s', _ | count⟩
    · exact id
    · exact id

theorem trace_keeps {changes : List Change} (hchanges : Q → ∀ c ∈ changes, c.FromNormal) (h : P s) :
    ∀ x ∈ trace s changes, P x.1 := by
  induction changes generalizing s with
  | nil => exact fun _ hx => absurd hx List.not_mem_nil
  | cons c rest ih =>
    have hstep := apply_keeps hput hdrop (fun hq => hchanges hq c List.mem_cons_self) h
    have hrest := ih (fun hq c' hc' => hchanges hq c' (List.mem_cons_of_mem _ hc')) hstep
    intro x hx
    rcases List.mem_cons.mp hx with rfl | hx
    · exact hstep
    · exact hrest x hx

end

section

variable [Lawful σ] {s : σ} (h : PathsNormal s)

include h

theorem pathsNormal_put {key : String} (hkey : IsFilePath key) (e : Entry) :
    PathsNormal (put s key e) := by
  intro path hpath
  rw [Lawful.mem_paths, Lawful.lookup?_put] at hpath
  split at hpath
  · next heq => exact heq ▸ hkey
  · exact h path ((Lawful.mem_paths s path).mpr hpath)

theorem pathsNormal_drop (key : String) : PathsNormal (drop s key) := by
  intro path hpath
  rw [Lawful.mem_paths, Lawful.lookup?_drop] at hpath
  split at hpath
  · cases hpath
  · exact h path ((Lawful.mem_paths s path).mpr hpath)

theorem pathsNormal_trace {changes : List Change} (hchanges : ∀ c ∈ changes, c.FromNormal) :
    ∀ x ∈ trace s changes, PathsNormal x.1 :=
  trace_keeps (P := PathsNormal) (Q := True)
    (fun _ _ e hkey hs => pathsNormal_put hs (hkey trivial) e)
    (fun _ key hs => pathsNormal_drop hs key) (fun _ => hchanges) h

end

theorem mem_dirs_iff {s : σ} {dir : String} (hdir : dir ≠ "") :
    dir ∈ dirs s ↔ ∃ path ∈ paths s, Path.isBelow path dir = true := by
  simp only [dirs, Dict.mem_sortKeys, List.mem_flatMap, Path.mem_ancestors_iff hdir]

theorem isFilePath_of_mem_dirs {s : σ} (h : PathsNormal s) {dir : String} (hdir : dir ∈ dirs s) :
    IsFilePath dir := by
  rw [dirs, Dict.mem_sortKeys, List.mem_flatMap] at hdir
  obtain ⟨path, hpath, hancestor⟩ := hdir
  obtain ⟨rest, rfl⟩ := Path.exists_of_mem_ancestors hancestor
  exact (Path.isFilePath_append_slash.mp (h _ hpath)).1

end ResourceModels.FileStore
