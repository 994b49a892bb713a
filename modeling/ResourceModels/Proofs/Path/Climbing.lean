import ResourceModels.Proofs.Path.Normal

/-!
# Climbing above the root

Segments are resolved from left to right, so a directory may be brought to normal form before what
follows it is looked at. A path is refused exactly when some of its first segments climb more often
than they descend.
-/

namespace ResourceModels

/-- The failure with another path for the one it quotes. -/
def FileError.quoting (path : String) : FileError → FileError
  | .invalidPath _ fault => .invalidPath path fault
  | e => e

namespace Path

instance : DecidablePred IsPlain := fun segment =>
  inferInstanceAs (Decidable (segment ≠ "" ∧ segment ≠ "." ∧ segment ≠ ".."))

/-- How many segments lead down. -/
def descents (segments : List String) : Nat := segments.countP (IsPlain ·)

/-- How many segments lead up. -/
def climbs (segments : List String) : Nat := segments.count ".."

variable {kept segs start rest : List String} {path key : String}

@[simp]
theorem descents_cons (segment : String) (rest : List String) :
    descents (segment :: rest) = descents rest + if IsPlain segment then 1 else 0 := by
  simp [descents, List.countP_cons]

@[simp]
theorem climbs_cons (segment : String) (rest : List String) :
    climbs (segment :: rest) = climbs rest + if segment = ".." then 1 else 0 := by
  simp [climbs, List.count_cons]

theorem resolve_append (kept first rest : List String) :
    resolve kept (first ++ rest) = (resolve kept first).bind fun segs => resolve segs.reverse rest := by
  induction first generalizing kept with
  | nil => simp [resolve]
  | cons segment more ih =>
    simp only [List.cons_append, resolve]
    split
    · exact ih kept
    · split
      · cases kept with
        | nil => rfl
        | cons _ outer => exact ih outer
      · exact ih (segment :: kept)

theorem exists_prefix_cons_iff {segment : String} {P : List String → Prop} :
    (∃ start, start <+: segment :: rest ∧ P start) ↔
      P [] ∨ ∃ start, start <+: rest ∧ P (segment :: start) := by
  constructor
  · rintro ⟨start, hstart, h⟩
    rcases List.prefix_cons_iff.mp hstart with rfl | ⟨more, rfl, hmore⟩
    · exact .inl h
    · exact .inr ⟨more, hmore, h⟩
  · rintro (h | ⟨start, hstart, h⟩)
    · exact ⟨[], List.nil_prefix, h⟩
    · exact ⟨segment :: start, List.cons_prefix_cons.mpr ⟨rfl, hstart⟩, h⟩

/-- Below some directories, segments climb above the root once they have climbed past all of them. -/
theorem resolve_eq_none_iff : resolve kept segs = none ↔
    ∃ start, start <+: segs ∧ kept.length + descents start < climbs start := by
  induction segs generalizing kept with
  | nil => simp [resolve, descents, climbs]
  | cons segment rest ih =>
    have hnil : ¬kept.length + descents [] < climbs [] := by simp [climbs]
    rw [exists_prefix_cons_iff, or_iff_right hnil]
    simp only [resolve, descents_cons, climbs_cons]
    split
    · next hskip =>
      -- an empty segment or a dot leads nowhere
      have hplain : ¬IsPlain segment := fun h => hskip.elim h.1 h.2.1
      have hdots : segment ≠ ".." := by rcases hskip with rfl | rfl <;> decide
      simp only [if_neg hplain, if_neg hdots, Nat.add_zero]
      exact ih
    · next hkeep =>
      split
      · next hdots =>
        subst hdots
        have hplain : ¬IsPlain ".." := by decide
        simp only [if_neg hplain, Nat.add_zero]
        cases kept with
        | nil =>
          refine iff_of_true rfl ⟨[], List.nil_prefix, ?_⟩
          simp [descents]
        | cons _ outer =>
          rw [ih]
          refine exists_congr fun start => and_congr_right fun _ => ?_
          rw [List.length_cons]
          omega
      · next hdots =>
        have hplain : IsPlain segment := ⟨fun h => hkeep (.inl h), fun h => hkeep (.inr h), hdots⟩
        simp only [if_pos hplain, Nat.add_zero]
        rw [ih]
        refine exists_congr fun start => and_congr_right fun _ => ?_
        rw [List.length_cons]
        omega

theorem normalize?_eq_none_iff : normalize? path = none ↔
    ∃ start, start <+: segments path ∧ descents start < climbs start := by
  rw [normalize?, Option.map_eq_none_iff, resolve_eq_none_iff]
  simp only [List.length_nil, Nat.zero_add]

theorem normalize?_append_slash (h : normalize? path = some key) (rest : String) :
    normalize? (key ++ "/" ++ rest) = normalize? (path ++ "/" ++ rest) := by
  simp only [normalize?, segments_append_slash, resolve_append, resolve_segments_of_normalize? h]

theorem normalize_eq_ok : normalize path = .ok key ↔ normalize? path = some key := by
  unfold normalize
  cases normalize? path <;> simp

theorem normalize_eq_error_iff :
    (∃ cause, normalize path = .error cause) ↔ normalize? path = none := by
  unfold normalize
  cases normalize? path <;> simp

theorem quoting_normalize (quoted path : String) :
    (normalize path).mapError (FileError.quoting quoted) =
      match normalize? path with
      | some key => .ok key
      | none => .error (.invalidPath quoted .escapesRoot) := by
  unfold normalize
  cases normalize? path <;> rfl

theorem normalize_idempotent (path : String) :
    (normalize path >>= normalize) = normalize path := by
  cases h : normalize path with
  | error cause => rfl
  | ok key => exact normalize_eq_ok.mpr (isNormal_of_normalize h)

/-- Below a directory, the directory may be brought to normal form first. -/
theorem normalize_append_slash (h : normalize path = .ok key) (rest : String) :
    (normalize (key ++ "/" ++ rest)).mapError (FileError.quoting (path ++ "/" ++ rest)) =
      normalize (path ++ "/" ++ rest) := by
  rw [quoting_normalize, normalize?_append_slash (normalize_eq_ok.mp h)]
  rfl

end Path

end ResourceModels
