import ResourceModels.FileStore
import ResourceModels.Proofs.Text

/-!
# Normal forms of paths

A last segment that is neither empty nor made of dots alone stays the last segment of the normal
form. Where no segment is made of dots alone, the normal form drops the empty segments.
-/

namespace ResourceModels.Path

/-- A segment that a normal form keeps. -/
def IsPlain (segment : String) : Prop := segment ≠ "" ∧ segment ≠ "." ∧ segment ≠ ".."

theorem isPlain_of_length {segment : String} (h : 2 < segment.length) : IsPlain segment := by
  refine ⟨?_, ?_, ?_⟩ <;>
    · rintro rfl
      revert h
      decide

theorem resolve_concat {last : String} (hl : IsPlain last) (kept init : List String) :
    resolve kept (init ++ [last]) = (resolve kept init).map (· ++ [last]) := by
  obtain ⟨hempty, hdot, hdots⟩ := hl
  induction init generalizing kept with
  | nil => simp [resolve, hempty, hdot, hdots]
  | cons segment rest ih =>
    simp only [List.cons_append, resolve]
    split
    · exact ih kept
    · split
      · cases kept with
        | nil => rfl
        | cons _ outer => exact ih outer
      · exact ih (segment :: kept)

theorem isBelow_iff {path dir : String} (h : dir ≠ "") :
    isBelow path dir = true ↔ Text.startsWith (dir ++ "/") path = true := by
  rw [isBelow, below?, if_neg h, Option.isSome_iff_exists, Text.startsWith_iff]
  simp only [Text.after?_eq_some]
  constructor
  · rintro ⟨rest, rfl⟩
    exact ⟨rest.toList, (String.toList_append ..).symm⟩
  · rintro ⟨rest, hrest⟩
    exact ⟨String.ofList rest, by rw [← String.toList_inj, String.toList_append, ← hrest,
      String.toList_ofList]⟩

theorem mem_of_mem_segments {path segment : String} (h : segment ∈ segments path) :
    ∀ c ∈ segment.toList, c ∈ path.toList := by
  obtain ⟨piece, hpiece, rfl⟩ := List.mem_map.mp h
  rw [String.toList_ofList]
  exact Text.mem_of_mem_splitList hpiece

theorem segments_append (path : String) {tail : String}
    (ht : ∀ c ∈ tail.toList, isSeparator c = false) :
    ∃ init last, segments path = init ++ [last] ∧ segments (path ++ tail) = init ++ [last ++ tail] := by
  obtain ⟨init, last, hs, happend⟩ := Text.splitList_append ht path.toList
  refine ⟨init.map String.ofList, String.ofList last, ?_, ?_⟩
  · rw [segments, Text.split, hs, List.map_append, List.map_singleton]
  · rw [segments, Text.split, String.toList_append, happend, List.map_append, List.map_singleton,
      String.ofList_append, String.ofList_toList]

theorem endsWith_of_normalize? {path tail key : String}
    (ht : ∀ c ∈ tail.toList, isSeparator c = false) (hl : 2 < tail.length)
    (h : normalize? (path ++ tail) = some key) : Text.endsWith tail key = true := by
  obtain ⟨init, last, _, happend⟩ := segments_append path ht
  have hplain : IsPlain (last ++ tail) :=
    isPlain_of_length (by rw [String.length_append]; omega)
  rw [normalize?, happend, resolve_concat hplain] at h
  cases hr : resolve [] init with
  | none => simp [hr] at h
  | some kept =>
    simp only [hr, Option.map_some, Option.some.injEq] at h
    subst h
    by_cases hk : kept = []
    · subst hk
      exact Text.endsWith_append last tail
    · rw [Text.join_concat _ hk, ← String.append_assoc]
      exact Text.endsWith_append _ tail

theorem resolve_of_noDots {pieces : List String} (h : ∀ s ∈ pieces, s ≠ "." ∧ s ≠ "..")
    (kept : List String) :
    resolve kept pieces = some (kept.reverse ++ pieces.filter (· ≠ "")) := by
  induction pieces generalizing kept with
  | nil => simp [resolve]
  | cons segment rest ih =>
    have hs := h segment List.mem_cons_self
    have hrest := ih fun s hm => h s (List.mem_cons_of_mem _ hm)
    by_cases hempty : segment = ""
    · simp [resolve, hempty, hrest]
    · simp [resolve, hempty, hs, hrest]

theorem normalize?_of_noDots {path : String} (h : ∀ s ∈ segments path, s ≠ "." ∧ s ≠ "..") :
    normalize? path = some (Text.join "/" ((segments path).filter (· ≠ ""))) := by
  rw [normalize?, resolve_of_noDots h]
  rfl

theorem normalizeFile_eq_ok {path key : String} :
    normalizeFile path = .ok key ↔ normalize? path = some key ∧ key ≠ "" := by
  unfold normalizeFile
  split
  · next h =>
    simp only [h, Option.some.injEq, reduceCtorEq, false_iff, not_and]
    exact fun heq hne => hne heq.symm
  · next k hne h =>
    simp only [h, Except.ok.injEq, Option.some.injEq, iff_self_and]
    rintro rfl
    exact hne
  · next h => simp [h]

end ResourceModels.Path
