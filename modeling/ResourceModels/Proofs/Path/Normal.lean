import Mathlib.Tactic.ByContra
import Mathlib.Tactic.Tauto
import ResourceModels.Proofs.Path

/-!
# Paths in normal form

A path other than the root is in normal form exactly when it holds no backslash and every segment of
it is one that a normal form keeps. So normal forms are closed under joining and under taking the
directories of a file, and bringing a path to normal form twice changes nothing more.
-/

namespace ResourceModels.Path

open Text (splitList)

def IsNormal (path : String) : Prop := normalize? path = some path

instance (path : String) : Decidable (IsNormal path) :=
  inferInstanceAs (Decidable (normalize? path = some path))

theorem resolve_of_plain {pieces : List String} (h : ∀ s ∈ pieces, IsPlain s) (kept : List String) :
    resolve kept pieces = some (kept.reverse ++ pieces) := by
  induction pieces generalizing kept with
  | nil => simp [resolve]
  | cons segment rest ih =>
    obtain ⟨hempty, hdot, hdots⟩ := h segment List.mem_cons_self
    have hrest := ih fun s hs => h s (List.mem_cons_of_mem _ hs)
    simp [resolve, hempty, hdot, hdots, hrest]

/-- The segments of a normal form are plain ones among those of the path. -/
theorem mem_of_resolve {pieces kept segs : List String} (h : resolve kept pieces = some segs)
    {s : String} (hs : s ∈ segs) : s ∈ kept ∨ s ∈ pieces ∧ IsPlain s := by
  induction pieces generalizing kept with
  | nil =>
    cases h
    exact .inl (List.mem_reverse.mp hs)
  | cons segment rest ih =>
    simp only [resolve] at h
    split at h
    · exact (ih h).imp_right fun hrest => ⟨List.mem_cons_of_mem _ hrest.1, hrest.2⟩
    · next hkeep =>
      split at h
      · cases kept with
        | nil => cases h
        | cons inner outer =>
          rcases ih h with houter | hrest
          · exact .inl (List.mem_cons_of_mem _ houter)
          · exact .inr ⟨List.mem_cons_of_mem _ hrest.1, hrest.2⟩
      · next hdots =>
        rcases ih h with hkept | hrest
        · rcases List.mem_cons.mp hkept with rfl | hkept
          · rw [not_or] at hkeep
            exact .inr ⟨List.mem_cons_self, hkeep.1, hkeep.2, hdots⟩
          · exact .inl hkept
        · exact .inr ⟨List.mem_cons_of_mem _ hrest.1, hrest.2⟩

theorem noSeparator_of_mem_segments {path segment : String} (h : segment ∈ segments path) :
    ∀ c ∈ segment.toList, isSeparator c = false := Text.noMark_of_mem_split h

theorem noSeparator_append {s t : String} (hs : ∀ c ∈ s.toList, isSeparator c = false)
    (ht : ∀ c ∈ t.toList, isSeparator c = false) :
    ∀ c ∈ (s ++ t).toList, isSeparator c = false := by
  intro c hc
  rw [String.toList_append, List.mem_append] at hc
  exact hc.elim (hs c) (ht c)

theorem isSeparator_slash : isSeparator '/' = true := by decide

theorem segments_append_slash (path rest : String) :
    segments (path ++ "/" ++ rest) = segments path ++ segments rest :=
  Text.split_append_mark isSeparator_slash path rest

theorem noSeparator_iff {segment : String} : (∀ c ∈ segment.toList, isSeparator c = false) ↔
    '/' ∉ segment.toList ∧ '\\' ∉ segment.toList := by
  simp only [isSeparator, Bool.or_eq_false_iff, decide_eq_false_iff_not]
  exact ⟨fun h => ⟨fun hmem => (h _ hmem).1 rfl, fun hmem => (h _ hmem).2 rfl⟩, fun h c hc =>
    ⟨ne_of_mem_of_not_mem hc h.1, ne_of_mem_of_not_mem hc h.2⟩⟩

theorem segments_of_noSeparator {segment : String}
    (h : ∀ c ∈ segment.toList, isSeparator c = false) : segments segment = [segment] :=
  Text.split_of_noMark h

theorem segments_join {segs : List String} (hne : segs ≠ [])
    (h : ∀ s ∈ segs, ∀ c ∈ s.toList, isSeparator c = false) :
    segments (Text.join "/" segs) = segs :=
  Text.split_join isSeparator_slash hne h

theorem join_segments {path : String} (h : '\\' ∉ path.toList) :
    Text.join "/" (segments path) = path := by
  have hmarks : ∀ c ∈ path.toList, isSeparator c = true → c = '/' := by
    intro c hc hmark
    rcases Bool.or_eq_true_iff.mp hmark with heq | heq
    · exact of_decide_eq_true heq
    · exact absurd (of_decide_eq_true heq ▸ hc) h
  have hslash : "/" = String.singleton '/' := rfl
  rw [segments, Text.split, hslash, Text.join_splitList hmarks, String.ofList_toList]

/-- A path in normal form that may name a file. -/
def IsFilePath (path : String) : Prop := IsNormal path ∧ path ≠ ""

instance (path : String) : Decidable (IsFilePath path) :=
  inferInstanceAs (Decidable (IsNormal path ∧ path ≠ ""))

theorem isFilePath_iff {path : String} :
    IsFilePath path ↔ (∀ s ∈ segments path, IsPlain s) ∧ '\\' ∉ path.toList := by
  constructor
  · rintro ⟨h, hne⟩
    obtain ⟨segs, hsegs, hjoin⟩ := Option.map_eq_some_iff.mp h
    have hmem : ∀ s ∈ segs, s ∈ segments path ∧ IsPlain s := fun s hs =>
      (mem_of_resolve hsegs hs).resolve_left List.not_mem_nil
    have hsegs_ne : segs ≠ [] := by
      rintro rfl
      exact hne hjoin.symm
    have hclean : ∀ s ∈ segs, ∀ c ∈ s.toList, isSeparator c = false := fun s hs =>
      noSeparator_of_mem_segments (hmem s hs).1
    have hown : segments path = segs := hjoin ▸ segments_join hsegs_ne hclean
    refine ⟨fun s hs => (hmem s (hown ▸ hs)).2, fun hslash => ?_⟩
    rw [← hjoin] at hslash
    rcases Text.mem_of_mem_join hslash with hslash | ⟨s, hs, hslash⟩
    · exact absurd hslash (by decide)
    · exact absurd (hclean s hs _ hslash) (by decide)
  · rintro ⟨hplain, hslash⟩
    refine ⟨?_, ?_⟩
    · rw [IsNormal, normalize?, resolve_of_plain hplain, List.reverse_nil, List.nil_append,
        Option.map_some, join_segments hslash]
    · rintro rfl
      exact (hplain "" (by decide)).1 rfl

theorem segments_of_noSlash {name : String} (hname : IsFilePath name) (hslash : '/' ∉ name.toList) :
    segments name = [name] :=
  segments_of_noSeparator (noSeparator_iff.mpr ⟨hslash, (isFilePath_iff.mp hname).2⟩)

/-- A path and its normal form resolve to the same segments. -/
theorem resolve_segments_of_normalize? {path key : String} (h : normalize? path = some key) :
    resolve [] (segments key) = resolve [] (segments path) := by
  obtain ⟨segs, hsegs, rfl⟩ := Option.map_eq_some_iff.mp h
  have hmem : ∀ s ∈ segs, s ∈ segments path ∧ IsPlain s := fun s hs =>
    (mem_of_resolve hsegs hs).resolve_left List.not_mem_nil
  rw [hsegs]
  by_cases hne : segs = []
  · subst hne
    rfl
  · have hclean : ∀ s ∈ segs, ∀ c ∈ s.toList, isSeparator c = false := fun s hs =>
      noSeparator_of_mem_segments (hmem s hs).1
    rw [segments_join hne hclean, resolve_of_plain fun s hs => (hmem s hs).2]
    rfl

/-- Paths that have one normal form are made of the same segments, if all of them are kept. -/
theorem segments_eq_of_normalizeFile {path path' key : String} (h : ∀ s ∈ segments path, IsPlain s)
    (h' : ∀ s ∈ segments path', IsPlain s) (hkey : normalizeFile path = .ok key)
    (hkey' : normalizeFile path' = .ok key) : segments path = segments path' := by
  have hresolve := resolve_segments_of_normalize? (normalizeFile_eq_ok.mp hkey).1
  have hresolve' := resolve_segments_of_normalize? (normalizeFile_eq_ok.mp hkey').1
  rw [resolve_of_plain h] at hresolve
  rw [resolve_of_plain h', hresolve] at hresolve'
  simpa using hresolve'

theorem isNormal_of_normalize? {path key : String} (h : normalize? path = some key) :
    IsNormal key := by
  rw [IsNormal, ← h, normalize?, normalize?, resolve_segments_of_normalize? h]

theorem isFilePath_append_slash {dir rest : String} :
    IsFilePath (dir ++ "/" ++ rest) ↔ IsFilePath dir ∧ IsFilePath rest := by
  have hslash : '\\' ∉ (dir ++ "/" ++ rest).toList ↔ '\\' ∉ dir.toList ∧ '\\' ∉ rest.toList := by
    simp
  rw [isFilePath_iff, isFilePath_iff, isFilePath_iff, segments_append_slash, hslash]
  simp only [List.mem_append, or_imp, forall_and]
  tauto

/-- A last segment that goes on for more than two characters is no dots. -/
theorem isFilePath_append {path tail : String} (h : IsFilePath path)
    (ht : ∀ c ∈ tail.toList, isSeparator c = false) (hl : 2 < tail.length) :
    IsFilePath (path ++ tail) := by
  obtain ⟨init, last, hsegments, happend⟩ := segments_append path ht
  obtain ⟨hplain, hslash⟩ := isFilePath_iff.mp h
  rw [hsegments] at hplain
  rw [isFilePath_iff, happend]
  refine ⟨fun s hs => ?_, fun hmem => ?_⟩
  · rcases List.mem_append.mp hs with hs | hs
    · exact hplain s (List.mem_append_left _ hs)
    · rw [List.mem_singleton.mp hs]
      exact isPlain_of_length (by rw [String.length_append]; omega)
  · rcases List.mem_append.mp (String.toList_append .. ▸ hmem) with hmem | hmem
    · exact hslash hmem
    · exact absurd (ht _ hmem) (by decide)

theorem isFilePath_join {base rest : String} (hbase : IsNormal base) (hrest : IsFilePath rest) :
    IsFilePath (join base rest) := by
  unfold join
  rw [if_neg hrest.2]
  split
  · exact hrest
  · next hne => exact isFilePath_append_slash.mpr ⟨⟨hbase, hne⟩, hrest⟩

theorem join_append_slash (base dir rest : String) (h : dir ≠ "") :
    join base (dir ++ "/" ++ rest) = join base dir ++ "/" ++ rest := by
  have hne : dir ++ "/" ++ rest ≠ "" := by simp [String.append_eq_empty_iff]
  unfold join
  rw [if_neg h, if_neg hne]
  split
  · rfl
  · simp only [String.append_assoc]

theorem notMem_join {base rest : String} {c : Char} (hc : c ≠ '/') (hbase : c ∉ base.toList)
    (hrest : c ∉ rest.toList) : c ∉ (join base rest).toList := by
  unfold join
  split
  · exact hrest
  split
  · exact hbase
  · simp [hbase, hrest, hc]

theorem isFilePath_below? {path dir rest : String} (hpath : IsFilePath path)
    (h : below? path dir = some rest) : IsFilePath rest := by
  unfold below? at h
  split at h
  · cases h
    exact hpath
  · rw [Text.after?_eq_some.mp h] at hpath
    exact (isFilePath_append_slash.mp hpath).2

theorem mem_ancestorsFrom {before rest : List Char} {dir : String}
    (h : dir ∈ ancestorsFrom before rest) :
    ∃ more, before.reverse ++ rest = dir.toList ++ '/' :: more := by
  induction rest generalizing before with
  | nil => cases h
  | cons c rest ih =>
    simp only [ancestorsFrom] at h
    split at h
    · next hc =>
      rcases List.mem_cons.mp h with rfl | h
      · exact ⟨rest, by simp [hc]⟩
      · obtain ⟨more, hmore⟩ := ih h
        exact ⟨more, by simpa using hmore⟩
    · obtain ⟨more, hmore⟩ := ih h
      exact ⟨more, by simpa using hmore⟩

theorem exists_of_mem_ancestors {path dir : String} (h : dir ∈ ancestors path) :
    ∃ rest, path = dir ++ "/" ++ rest := by
  obtain ⟨more, hmore⟩ := mem_ancestorsFrom h
  refine ⟨String.ofList more, ?_⟩
  rw [← String.toList_inj]
  simpa using hmore

/-- A path in normal form does not begin with a dot as a segment. -/
theorem after?_dot_of_isFilePath {path : String} (h : IsFilePath path) :
    Text.after? "./" path = none := by
  by_contra hsome
  obtain ⟨rest, hrest⟩ := Option.ne_none_iff_exists'.mp hsome
  obtain rfl := Text.after?_eq_some.mp hrest
  have hstart : "./" = "." ++ "/" := by decide
  rw [hstart, isFilePath_append_slash] at h
  exact absurd h.1 (by decide)

theorem normalizeFile_of_isFilePath {path : String} (h : IsFilePath path) :
    normalizeFile path = .ok path := normalizeFile_eq_ok.mpr h

theorem isFilePath_of_normalizeFile {path key : String} (h : normalizeFile path = .ok key) :
    IsFilePath key := by
  obtain ⟨hkey, hne⟩ := normalizeFile_eq_ok.mp h
  exact ⟨isNormal_of_normalize? hkey, hne⟩

theorem isNormal_of_normalize {path key : String} (h : normalize path = .ok key) :
    IsNormal key := by
  unfold normalize at h
  split at h
  · next hkey =>
    cases h
    exact isNormal_of_normalize? hkey
  · cases h

end ResourceModels.Path
