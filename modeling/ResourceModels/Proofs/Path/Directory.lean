import ResourceModels.Proofs.Path.Climbing
import ResourceModels.Proofs.Path.Normal
import ResourceModels.Proofs.Text.Cut

/-!
# Directories and last segments

A path is cut at its last slash into the directory that holds it and its last segment.
-/

namespace ResourceModels.Path

variable {path dir name : String}

theorem splitLast?_slash (h : '/' ∉ name.toList) :
    Text.splitLast? '/' (dir ++ "/" ++ name) = some (dir, name) :=
  Text.splitLast?_eq_some.mpr ⟨rfl, h⟩

theorem parent_append_slash (h : '/' ∉ name.toList) : parent (dir ++ "/" ++ name) = dir := by
  simp only [parent, splitLast?_slash h]

theorem fileName_append_slash (h : '/' ∉ name.toList) : fileName (dir ++ "/" ++ name) = name := by
  simp only [fileName, splitLast?_slash h]

theorem fileName_of_notMem (h : '/' ∉ path.toList) : fileName path = path := by
  simp only [fileName, Text.splitLast?_of_notMem h]

theorem eq_parent_append (h : parent path ≠ "") :
    path = parent path ++ "/" ++ fileName path ∧ '/' ∉ (fileName path).toList := by
  cases hcut : Text.splitLast? '/' path with
  | none => exact absurd (by simp only [parent, hcut]) h
  | some pair =>
    simp only [parent, fileName, hcut]
    exact Text.splitLast?_eq_some.mp hcut

theorem join_of_ne (hdir : dir ≠ "") (hname : name ≠ "") : join dir name = dir ++ "/" ++ name := by
  rw [join, if_neg hdir, if_neg hname]

theorem below?_append_slash (hdir : dir ≠ "") (rest : String) :
    below? (dir ++ "/" ++ rest) dir = some rest := by
  rw [below?, if_neg hdir]
  exact Text.after?_eq_some.mpr rfl

end ResourceModels.Path

/-!
## Paths that stay below a directory

Where no segment after a directory leads up and something is left of them, the normal form lies
below the directory.
-/

namespace ResourceModels.Path

variable {dir front tail : String} {pieces : List String}

theorem resolve_of_noClimb (h : ".." ∉ pieces) (kept : List String) :
    resolve kept pieces = some (kept.reverse ++ pieces.filter (IsPlain ·)) := by
  induction pieces generalizing kept with
  | nil => simp [resolve]
  | cons segment rest ih =>
    obtain ⟨hdots, hrest⟩ := not_or.mp (List.mem_cons.not.mp h)
    have hkept := ih hrest
    simp only [resolve, if_neg (Ne.symm hdots)]
    split
    · next hskip =>
      have hplain : ¬IsPlain segment := fun hplain => hskip.elim hplain.1 hplain.2.1
      rw [hkept, List.filter_cons_of_neg (by simpa using hplain)]
    · next hkeep =>
      have hplain : IsPlain segment :=
        ⟨fun h => hkeep (.inl h), fun h => hkeep (.inr h), Ne.symm hdots⟩
      rw [hkept, List.filter_cons_of_pos (by simpa using hplain)]
      simp

/-- What ends in more than two characters without separators has a last segment that stays. -/
theorem exists_isBelow (hdir : IsFilePath dir) (hfront : ".." ∉ segments front)
    (htail : ∀ c ∈ tail.toList, isSeparator c = false) (hlength : 2 < tail.length) :
    ∃ key, normalizeFile (dir ++ "/" ++ (front ++ tail)) = .ok key ∧ isBelow key dir = true := by
  obtain ⟨init, last, hsegments, happend⟩ := segments_append front htail
  have hlast : IsPlain (last ++ tail) := isPlain_of_length (by rw [String.length_append]; omega)
  have hclimb : ".." ∉ segments (front ++ tail) := by
    rw [happend]
    rw [hsegments] at hfront
    intro hmem
    rcases List.mem_append.mp hmem with hmem | hmem
    · exact hfront (List.mem_append_left _ hmem)
    · exact hlast.2.2 (List.mem_singleton.mp hmem).symm
  obtain ⟨hplain, hslash⟩ := isFilePath_iff.mp hdir
  have hne : segments dir ≠ [] := by
    simpa [segments, Text.split] using Text.splitList_ne_nil isSeparator dir.toList
  have hrest : (segments (front ++ tail)).filter (IsPlain ·) ≠ [] := by
    have hmem : last ++ tail ∈ init ++ [last ++ tail] :=
      List.mem_append_right _ (List.mem_singleton.mpr rfl)
    rw [happend]
    exact List.ne_nil_of_mem (List.mem_filter.mpr ⟨hmem, by simpa using hlast⟩)
  have hkey : normalize? (dir ++ "/" ++ (front ++ tail)) =
      some (dir ++ "/" ++ Text.join "/" ((segments (front ++ tail)).filter (IsPlain ·))) := by
    rw [normalize?, segments_append_slash, resolve_append, resolve_of_plain hplain]
    simp only [List.reverse_nil, List.nil_append, Option.bind_some]
    rw [resolve_of_noClimb hclimb, List.reverse_reverse, Option.map_some,
      Text.join_append "/" hne hrest, join_segments hslash]
  refine ⟨_, normalizeFile_eq_ok.mpr ⟨hkey, by simp [String.append_eq_empty_iff]⟩, ?_⟩
  rw [isBelow, below?_append_slash hdir.2]
  rfl

end ResourceModels.Path

/-!
## Directories that a path lies in

Of two directories that a path lies in, one lies in the other. Where a path is followed from a
directory, what remains is made of the first segments of the directory and of segments of the path.
-/

namespace ResourceModels.Path

variable {path dir dir' rest key : String}

theorem isBelow_iff_exists (hdir : dir ≠ "") :
    isBelow path dir = true ↔ ∃ rest, path = dir ++ "/" ++ rest := by
  rw [isBelow, below?, if_neg hdir, Option.isSome_iff_exists]
  simp only [Text.after?_eq_some]

theorem ne_empty_of_not_isBelow (h : isBelow path dir = false) : dir ≠ "" := by
  rintro rfl
  cases h

theorem isBelow_trans (hdir : dir ≠ "") (hdir' : dir' ≠ "") (h : isBelow path dir = true)
    (h' : isBelow dir dir' = true) : isBelow path dir' = true := by
  obtain ⟨rest, rfl⟩ := (isBelow_iff_exists hdir).mp h
  obtain ⟨between, rfl⟩ := (isBelow_iff_exists hdir').mp h'
  exact (isBelow_iff_exists hdir').mpr ⟨between ++ "/" ++ rest, by simp only [String.append_assoc]⟩

theorem ne_empty_of_isBelow (hdir : dir ≠ "") (h : isBelow path dir = true) : path ≠ "" := by
  obtain ⟨rest, rfl⟩ := (isBelow_iff_exists hdir).mp h
  simp [String.append_eq_empty_iff]

/-- No directory lies between a directory and a file in it. -/
theorem not_between {name : String} (hdir : dir ≠ "") (hname : '/' ∉ name.toList)
    (h : isBelow (dir ++ "/" ++ name) dir' = true) : isBelow dir' dir = false := by
  by_contra hbetween
  obtain ⟨front, rfl⟩ := (isBelow_iff_exists hdir).mp (by simpa using hbetween)
  obtain ⟨rest, hrest⟩ := (isBelow_iff_exists (by simp [String.append_eq_empty_iff])).mp h
  simp only [String.append_assoc] at hrest
  rw [String.append_right_inj, String.append_right_inj] at hrest
  rw [hrest] at hname
  simp at hname

theorem nested_of_isBelow (hdir : dir ≠ "") (hdir' : dir' ≠ "") (h : isBelow path dir = true)
    (h' : isBelow path dir' = true) :
    dir = dir' ∨ isBelow dir dir' = true ∨ isBelow dir' dir = true := by
  obtain ⟨rest, hrest⟩ := (isBelow_iff_exists hdir).mp h
  obtain ⟨rest', hrest'⟩ := (isBelow_iff_exists hdir').mp h'
  have hsame : dir.toList ++ '/' :: rest.toList = dir'.toList ++ '/' :: rest'.toList := by
    have htext := congrArg String.toList (hrest.symm.trans hrest')
    simpa using htext
  rcases List.append_eq_append_iff.mp hsame with ⟨more, hmore, hend⟩ | ⟨more, hmore, hend⟩
  · cases more with
    | nil => exact .inl (String.toList_inj.mp (by simpa using hmore.symm))
    | cons c more =>
      obtain ⟨rfl, _⟩ := List.cons_eq_cons.mp hend
      refine .inr (.inr ((isBelow_iff_exists hdir).mpr ⟨String.ofList more, ?_⟩))
      rw [← String.toList_inj, hmore]
      simp
  · cases more with
    | nil => exact .inl (String.toList_inj.mp (by simpa using hmore))
    | cons c more =>
      obtain ⟨rfl, _⟩ := List.cons_eq_cons.mp hend
      refine .inr (.inl ((isBelow_iff_exists hdir').mpr ⟨String.ofList more, ?_⟩))
      rw [← String.toList_inj, hmore]
      simp

/-- Two directories of which none is the other or lies in it. -/
structure Apart (dir dir' : String) : Prop where
  left : IsNormal dir
  right : IsNormal dir'
  ne : dir ≠ dir'
  left_notBelow : isBelow dir dir' = false
  right_notBelow : isBelow dir' dir = false

instance (dir dir' : String) : Decidable (Apart dir dir') :=
  decidable_of_iff (IsNormal dir ∧ IsNormal dir' ∧ dir ≠ dir' ∧ isBelow dir dir' = false ∧
      isBelow dir' dir = false)
    ⟨fun ⟨hleft, hright, hne, h, h'⟩ => ⟨hleft, hright, hne, h, h'⟩,
      fun h => ⟨h.left, h.right, h.ne, h.left_notBelow, h.right_notBelow⟩⟩

theorem Apart.symm (h : Apart dir dir') : Apart dir' dir :=
  ⟨h.right, h.left, h.ne.symm, h.right_notBelow, h.left_notBelow⟩

theorem Apart.isFilePath_left (h : Apart dir dir') : IsFilePath dir :=
  ⟨h.left, ne_empty_of_not_isBelow h.right_notBelow⟩

theorem Apart.isFilePath_right (h : Apart dir dir') : IsFilePath dir' := h.symm.isFilePath_left

theorem Apart.notBelow (h : Apart dir dir') (hpath : isBelow path dir = true) :
    isBelow path dir' = false := by
  by_contra hboth
  rw [Bool.not_eq_false] at hboth
  rcases nested_of_isBelow h.isFilePath_left.2 h.isFilePath_right.2 hpath hboth with heq | hin | hin
  · exact h.ne heq
  · rw [h.left_notBelow] at hin
    cases hin
  · rw [h.right_notBelow] at hin
    cases hin

theorem Apart.ne_of_isBelow (h : Apart dir dir') (hpath : isBelow path dir = true)
    (hkey : isBelow key dir' = true) : path ≠ key := by
  rintro rfl
  rw [h.notBelow hpath] at hkey
  cases hkey

theorem join_empty (dir : String) : join dir "" = dir := by
  unfold join
  split
  · next hdir => exact hdir.symm
  · rfl

theorem segments_ne_nil (path : String) : segments path ≠ [] := by
  simpa [segments, Text.split] using Text.splitList_ne_nil isSeparator path.toList

theorem join_ne_empty (hdir : dir ≠ "") : join dir rest ≠ "" := by
  unfold join
  split
  · contradiction
  split
  · exact hdir
  · simp [String.append_eq_empty_iff]

theorem isBelow_join (hdir : dir ≠ "") (hrest : rest ≠ "") : isBelow (join dir rest) dir = true := by
  rw [join_of_ne hdir hrest]
  exact (isBelow_iff_exists hdir).mpr ⟨rest, rfl⟩

theorem resolve_eq_append {kept pieces segs : List String} (h : resolve kept pieces = some segs) :
    ∃ front back, segs = front ++ back ∧ front <+: kept.reverse ∧ ∀ s ∈ back, s ∈ pieces := by
  induction pieces generalizing kept with
  | nil =>
    cases h
    exact ⟨kept.reverse, [], by simp, List.prefix_refl _, fun _ hs => absurd hs List.not_mem_nil⟩
  | cons segment rest ih =>
    simp only [resolve] at h
    split at h
    · obtain ⟨front, back, hsegs, hfront, hback⟩ := ih h
      exact ⟨front, back, hsegs, hfront, fun s hs => List.mem_cons_of_mem _ (hback s hs)⟩
    split at h
    · cases kept with
      | nil => cases h
      | cons inner outer =>
        obtain ⟨front, back, hsegs, hfront, hback⟩ := ih h
        refine ⟨front, back, hsegs, ?_, fun s hs => List.mem_cons_of_mem _ (hback s hs)⟩
        rw [List.reverse_cons]
        exact hfront.trans (List.prefix_append _ _)
    · obtain ⟨front, back, hsegs, hfront, hback⟩ := ih h
      rw [List.reverse_cons, List.prefix_concat_iff] at hfront
      rcases hfront with rfl | hfront
      · refine ⟨kept.reverse, segment :: back, by simp [hsegs], List.prefix_refl _, ?_⟩
        intro s hs
        rcases List.mem_cons.mp hs with rfl | hs
        · exact List.mem_cons_self
        · exact List.mem_cons_of_mem _ (hback s hs)
      · exact ⟨front, back, hsegs, hfront, fun s hs => List.mem_cons_of_mem _ (hback s hs)⟩

theorem fileName_join_concat {init : List String} {last : String} (h : '/' ∉ last.toList) :
    fileName (Text.join "/" (init ++ [last])) = last := by
  by_cases hinit : init = []
  · rw [hinit]
    exact fileName_of_notMem h
  · rw [Text.join_concat "/" hinit, fileName_append_slash h]

/-- The last segment of a path that is followed from a directory comes from the path, unless it
leads to the directory or to one that holds it. -/
theorem eq_or_isBelow_of_mem_fileName (hdir : IsFilePath dir)
    (hkey : normalizeFile (join dir rest) = .ok key) {c : Char} (hrest : c ∉ rest.toList)
    (hc : c ∈ (fileName key).toList) : key = dir ∨ isBelow dir key = true := by
  by_cases hempty : rest = ""
  · rw [join, if_neg hdir.2, if_pos hempty, normalizeFile_of_isFilePath hdir] at hkey
    exact .inl (Except.ok.inj hkey).symm
  obtain ⟨hnormal, hne⟩ := normalizeFile_eq_ok.mp hkey
  obtain ⟨hplain, hslash⟩ := isFilePath_iff.mp hdir
  rw [join_of_ne hdir.2 hempty, normalize?, segments_append_slash, resolve_append,
    resolve_of_plain hplain, List.reverse_nil, List.nil_append, Option.bind_some] at hnormal
  obtain ⟨segs, hsegs, rfl⟩ := Option.map_eq_some_iff.mp hnormal
  obtain ⟨front, back, rfl, hfront, hback⟩ := resolve_eq_append hsegs
  rw [List.reverse_reverse] at hfront
  rcases List.eq_nil_or_concat' back with rfl | ⟨init, last, rfl⟩
  · rw [List.append_nil] at hne ⊢
    obtain ⟨more, hmore⟩ := hfront
    have hwhole := join_segments hslash
    rw [← hmore] at hwhole
    by_cases hend : more = []
    · rw [hend, List.append_nil] at hwhole
      exact .inl hwhole
    · have hstart : front ≠ [] := by
        rintro rfl
        exact hne rfl
      rw [Text.join_append "/" hstart hend] at hwhole
      exact .inr ((isBelow_iff_exists hne).mpr ⟨_, hwhole.symm⟩)
  · have hlast := hback last (by simp)
    have hclean : '/' ∉ last.toList := fun hmem =>
      absurd (noSeparator_of_mem_segments hlast '/' hmem) (by decide)
    rw [← List.append_assoc, fileName_join_concat hclean] at hc
    exact absurd (mem_of_mem_segments hlast c hc) hrest

theorem mem_ancestorsFrom_append {before front more : List Char}
    (h : dir.toList = before.reverse ++ front) :
    dir ∈ ancestorsFrom before (front ++ '/' :: more) := by
  induction front generalizing before with
  | nil =>
    rw [List.append_nil] at h
    simp only [List.nil_append, ancestorsFrom, if_true, ← h, String.ofList_toList]
    exact List.mem_cons_self
  | cons c front ih =>
    have hrest : dir ∈ ancestorsFrom (c :: before) (front ++ '/' :: more) := ih (by simpa using h)
    simp only [List.cons_append, ancestorsFrom]
    split
    · exact List.mem_cons_of_mem _ hrest
    · exact hrest

theorem mem_ancestors_iff (hdir : dir ≠ "") : dir ∈ ancestors path ↔ isBelow path dir = true := by
  rw [isBelow_iff_exists hdir]
  constructor
  · exact exists_of_mem_ancestors
  · rintro ⟨rest, rfl⟩
    have htext : (dir ++ "/" ++ rest).toList = dir.toList ++ '/' :: rest.toList := by simp
    rw [ancestors, htext]
    exact mem_ancestorsFrom_append rfl

/-- One more segment leads at most one directory up, so not out of the directory in front. -/
theorem exists_resolve_singleton {front back : List String} (hback : back ≠ []) (segment : String) :
    ∃ more, resolve (front ++ back).reverse [segment] = some (front ++ more) := by
  obtain ⟨init, last, rfl⟩ := (List.eq_nil_or_concat' back).resolve_left hback
  simp only [resolve]
  split
  · exact ⟨init ++ [last], by simp⟩
  split
  · exact ⟨init, by simp⟩
  · exact ⟨init ++ [last, segment], by simp⟩

end ResourceModels.Path
