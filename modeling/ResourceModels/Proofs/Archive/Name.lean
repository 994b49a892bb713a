import ResourceModels.Archive.Writing
import ResourceModels.Proofs.Path.Normal
import ResourceModels.Proofs.Text.Utf8

/-!
# Names of members

A path in normal form, with or without a separator behind it, is a name that a header takes as it
is when it fits. A longer one has a shortened form that a header takes: the cut leaves all segments
but the last one as they are.
-/

namespace ResourceModels.Archive

def IsPlain (segment : Bytes) : Prop := segment ≠ [] ∧ segment ≠ [46] ∧ segment ≠ [46, 46]

/-- Plain segments, with at most a separator behind them. -/
def IsRelative (name : Bytes) : Prop :=
  ∃ init last, name.splitOn 47 = init ++ [last] ∧ (∀ s ∈ init, IsPlain s) ∧
    (IsPlain last ∨ last = [] ∧ init ≠ [])

def isKept (segment : Bytes) : Bool := segment ≠ [] && segment ≠ [46]

theorem isKept_of_ne {segment : Bytes} (hempty : segment ≠ []) (hdot : segment ≠ [46]) :
    isKept segment = true := by
  unfold isKept
  simp [hempty, hdot]

theorem filter_singleton (s : Bytes) : [s].filter isKept = if isKept s then [s] else [] :=
  List.filter_cons

theorem joinSegments_eq (all : List Bytes) : joinSegments all = [47].intercalate all := by
  induction all with
  | nil => rfl
  | cons first rest ih =>
    cases rest with
    | nil => rw [joinSegments, List.intercalate_singleton]
    | cons second more =>
      rw [joinSegments, ih, List.intercalate_cons_cons, List.append_assoc, List.singleton_append]
      exact fun h => by cases h

theorem joinSegments_splitOn (name : Bytes) : joinSegments (name.splitOn 47) = name := by
  rw [joinSegments_eq, List.intercalate_splitOn]

theorem joinSegments_concat {init : List Bytes} (h : init ≠ []) (last : Bytes) :
    joinSegments (init ++ [last]) = joinSegments init ++ 47 :: last := by
  induction init with
  | nil => exact absurd rfl h
  | cons first rest ih =>
    cases rest with
    | nil => rfl
    | cons second more =>
      have hmore := ih (List.cons_ne_nil second more)
      change first ++ 47 :: joinSegments (second :: more ++ [last]) =
        first ++ 47 :: joinSegments (second :: more) ++ 47 :: last
      rw [hmore, List.append_assoc, List.cons_append]

theorem notMem_of_mem_splitOn {name piece : Bytes} (h : piece ∈ name.splitOn 47) : 47 ∉ piece := by
  induction name generalizing piece with
  | nil =>
    rw [List.splitOn_nil, List.mem_singleton] at h
    rw [h]
    exact List.not_mem_nil
  | cons b rest ih =>
    rw [List.splitOn_cons_eq_if_modifyHead] at h
    split at h
    · rcases List.mem_cons.mp h with rfl | h
      · exact List.not_mem_nil
      · exact ih h
    · next hb =>
      obtain ⟨first, more, hsplit⟩ := List.exists_cons_of_ne_nil (List.splitOn_ne_nil 47 rest)
      rw [hsplit, List.modifyHead_cons] at h
      rcases List.mem_cons.mp h with rfl | h
      · have hfirst := ih (hsplit ▸ List.mem_cons_self)
        rw [List.mem_cons, not_or]
        exact ⟨fun heq => hb (by rw [← heq, beq_self_eq_true]), hfirst⟩
      · exact ih (hsplit ▸ List.mem_cons_of_mem _ h)

/-- Going on with a name changes no segment but its last one. -/
theorem splitOn_append (name rest : Bytes) :
    ∃ init last more tail, name.splitOn 47 = init ++ [last] ∧
      (name ++ rest).splitOn 47 = init ++ (last ++ more) :: tail := by
  induction name with
  | nil =>
    obtain ⟨more, tail, hsplit⟩ := List.exists_cons_of_ne_nil (List.splitOn_ne_nil 47 rest)
    exact ⟨[], [], more, tail, rfl, hsplit⟩
  | cons b name ih =>
    obtain ⟨init, last, more, tail, hname, happend⟩ := ih
    by_cases hb : (b == 47) = true
    · refine ⟨[] :: init, last, more, tail, ?_, ?_⟩
      · rw [List.splitOn_cons_eq_if_modifyHead, if_pos hb, hname, List.cons_append]
      · rw [List.cons_append, List.splitOn_cons_eq_if_modifyHead, if_pos hb, happend,
          List.cons_append]
    cases init with
    | nil =>
      refine ⟨[], b :: last, more, tail, ?_, ?_⟩
      · rw [List.splitOn_cons_eq_if_modifyHead, if_neg hb, hname]
        rfl
      · rw [List.cons_append, List.splitOn_cons_eq_if_modifyHead, if_neg hb, happend]
        rfl
    | cons first init =>
      refine ⟨(b :: first) :: init, last, more, tail, ?_, ?_⟩
      · rw [List.splitOn_cons_eq_if_modifyHead, if_neg hb, hname]
        rfl
      · rw [List.cons_append, List.splitOn_cons_eq_if_modifyHead, if_neg hb, happend]
        rfl

section

variable {name last : Bytes} {init : List Bytes} (hpieces : name.splitOn 47 = init ++ [last])
  (hinit : ∀ s ∈ init, IsPlain s)

include hpieces

theorem eq_of_pieces (h : init ≠ []) : name = joinSegments init ++ 47 :: last := by
  rw [← joinSegments_concat h, ← hpieces, joinSegments_splitOn]

theorem getLast?_ne_separator (h : last ≠ []) : name.getLast? ≠ some 47 := by
  have hlast : 47 ∉ last := notMem_of_mem_splitOn (hpieces ▸ List.mem_concat_self)
  have hend : name.getLast? = last.getLast? := by
    by_cases hi : init = []
    · rw [← joinSegments_splitOn name, hpieces, hi]
      rfl
    · obtain ⟨b, rest, rfl⟩ := List.exists_cons_of_ne_nil h
      rw [eq_of_pieces hpieces hi, List.getLast?_append, List.getLast?_cons_cons]
      rw [List.getLast?_eq_some_getLast (List.cons_ne_nil b rest), Option.some_or]
  rw [hend]
  exact fun hsome => hlast (List.mem_of_getLast? hsome)

include hinit

theorem segments_of_pieces : segments name = init ++ [last].filter isKept := by
  have hkeep : init.filter isKept = init := by
    rw [List.filter_eq_self]
    intro s hs
    obtain ⟨hempty, hdot, _⟩ := hinit s hs
    exact isKept_of_ne hempty hdot
  rw [← hkeep, ← List.filter_append, ← hpieces]
  rfl

/-- A name begins with no separator if its first segment is not empty. -/
theorem head?_ne_separator (h : init ≠ [] ∨ last ≠ []) : name.head? ≠ some 47 := by
  intro hhead
  obtain ⟨rest, rfl⟩ : ∃ rest, name = 47 :: rest := by
    cases name with
    | nil => cases hhead
    | cons b rest => exact ⟨rest, by rw [Option.some.inj hhead]⟩
  rw [List.splitOn_cons_eq_if_modifyHead, if_pos (by decide)] at hpieces
  cases init with
  | nil =>
    rw [List.nil_append] at hpieces
    have hlast : [] = last := (List.cons.inj hpieces).1
    exact h.elim (fun hne => hne rfl) fun hne => hne hlast.symm
  | cons first init =>
    have hfirst : [] = first := (List.cons.inj hpieces).1
    exact (hinit first List.mem_cons_self).1 hfirst.symm

end

/-- What a header would hold of a name, whatever its length. -/
def headerForm (name : Bytes) : Bytes :=
  joinSegments (segments name) ++ if name.getLast? = some 47 then [47] else []

theorem headerName?_eq (isCut : Bool) (name : Bytes) : headerName? isCut name =
    if name.head? = some 47 ∨ segments name = [] ∨
      [46, 46] ∈ (if isCut then (segments name).dropLast else segments name) ∨
      0 ∈ headerForm name ∨ 100 < (headerForm name).length then none
    else some (headerForm name) := rfl

section

variable {name last : Bytes} {init : List Bytes} (hpieces : name.splitOn 47 = init ++ [last])
  (hinit : ∀ s ∈ init, IsPlain s)

include hpieces hinit

theorem headerForm_of_pieces (h : init ≠ [] ∨ last ≠ []) (hdot : last ≠ [46]) :
    headerForm name = name := by
  have hsegments := segments_of_pieces hpieces hinit
  -- An empty last piece is no segment, but the separator before it is kept.
  by_cases hlast : last = []
  · subst hlast
    have hi : init ≠ [] := h.resolve_right fun hne => hne rfl
    have hname := eq_of_pieces hpieces hi
    have hend : name.getLast? = some 47 := by rw [hname, List.getLast?_concat]
    rw [headerForm, hsegments, if_pos hend]
    change joinSegments (init ++ []) ++ [47] = name
    rw [List.append_nil, ← hname]
  · have hkeep : isKept last = true := isKept_of_ne hlast hdot
    rw [headerForm, hsegments, filter_singleton, if_pos hkeep, ← hpieces, joinSegments_splitOn,
      if_neg (getLast?_ne_separator hpieces hlast), List.append_nil]

/-- A dot that a cut leaves behind is dropped. -/
theorem headerForm_isPrefix (h : init ≠ [] ∨ last ≠ []) : headerForm name <+: name := by
  by_cases hdot : last = [46]
  · subst hdot
    have hsegments := segments_of_pieces hpieces hinit
    have hend := getLast?_ne_separator hpieces (List.cons_ne_nil _ _)
    have hform : headerForm name = joinSegments init := by
      rw [headerForm, hsegments, if_neg hend, List.append_nil]
      change joinSegments (init ++ []) = _
      rw [List.append_nil]
    rw [hform]
    by_cases hi : init = []
    · rw [hi]
      exact List.nil_prefix
    · rw [eq_of_pieces hpieces hi]
      exact List.prefix_append _ _
  · have hform := headerForm_of_pieces hpieces hinit h hdot
    exact ⟨[], by rw [List.append_nil, hform]⟩

theorem segments_ne_nil (h : init ≠ [] ∨ last ≠ [] ∧ last ≠ [46]) : segments name ≠ [] := by
  rw [segments_of_pieces hpieces hinit]
  rcases h with hi | hlast
  · exact List.append_ne_nil_of_left_ne_nil hi _
  · have hkeep : isKept last = true := isKept_of_ne hlast.1 hlast.2
    rw [filter_singleton, if_pos hkeep]
    exact List.append_ne_nil_of_right_ne_nil _ (List.cons_ne_nil _ _)

/-- Only the last segment of a cut name may be dots. -/
theorem dots_notMem {isCut : Bool} (h : isCut = true ∨ last ≠ [46, 46]) :
    [46, 46] ∉ if isCut then (segments name).dropLast else segments name := by
  have hdots : [46, 46] ∉ init := fun hmem => (hinit _ hmem).2.2 rfl
  rw [segments_of_pieces hpieces hinit, filter_singleton]
  cases isCut with
  | false =>
    have hlast : last ≠ [46, 46] := h.resolve_left (by decide)
    intro hmem
    rcases List.mem_append.mp hmem with hmem | hmem
    · exact hdots hmem
    · split at hmem
      · exact hlast (List.mem_singleton.mp hmem).symm
      · exact List.not_mem_nil hmem
  | true =>
    rw [if_pos rfl]
    split
    · rw [List.dropLast_concat]
      exact hdots
    · rw [List.append_nil]
      exact fun hmem => hdots ((List.dropLast_sublist init).mem hmem)

theorem headerName?_of_pieces (isCut : Bool) (hne : init ≠ [] ∨ last ≠ [] ∧ last ≠ [46])
    (hdots : isCut = true ∨ last ≠ [46, 46]) (hzero : 0 ∉ name) :
    headerName? isCut name =
      if (headerForm name).length ≤ 100 then some (headerForm name) else none := by
  have hne' : init ≠ [] ∨ last ≠ [] := hne.imp_right And.left
  have hhead := head?_ne_separator hpieces hinit hne'
  have hsegments := segments_ne_nil hpieces hinit hne
  have hclean := dots_notMem hpieces hinit hdots
  have hform := headerForm_isPrefix hpieces hinit hne'
  have hzeroForm : 0 ∉ headerForm name := fun hmem => hzero (hform.subset hmem)
  rw [headerName?_eq]
  by_cases hlength : (headerForm name).length ≤ 100
  · rw [if_pos hlength, if_neg]
    simp only [hhead, hsegments, hclean, hzeroForm, Nat.not_lt.mpr hlength, or_self,
      not_false_eq_true]
  · rw [if_neg hlength, if_pos]
    simp only [Nat.lt_of_not_le hlength, or_true]

end

theorem headerName?_of_isRelative {name : Bytes} (h : IsRelative name) (hzero : 0 ∉ name) :
    headerName? false name = if name.length ≤ 100 then some name else none := by
  obtain ⟨init, last, hpieces, hinit, hlast⟩ := h
  have hne : init ≠ [] ∨ last ≠ [] ∧ last ≠ [46] :=
    hlast.symm.imp And.right fun hplain => ⟨hplain.1, hplain.2.1⟩
  have hdot : last ≠ [46] ∧ last ≠ [46, 46] := by
    rcases hlast with hplain | ⟨rfl, _⟩
    · exact hplain.2
    · decide
  have hform := headerForm_of_pieces hpieces hinit (hne.imp_right And.left) hdot.1
  have hread := headerName?_of_pieces hpieces hinit false hne (.inr hdot.2) hzero
  rw [hform] at hread
  exact hread

/-- The cut has to leave enough of a name to keep a segment of it. -/
theorem exists_headerName?_cut {name rest : Bytes} (h : IsRelative (name ++ rest))
    (hzero : 0 ∉ name) (hlow : 1 < name.length) (hhigh : name.length ≤ 100) :
    ∃ short, headerName? true name = some short ∧ short.length ≤ 100 ∧ 0 ∉ short := by
  obtain ⟨before, final, hwhole, hbefore, _⟩ := h
  obtain ⟨init, last, more, tail, hpieces, happend⟩ := splitOn_append name rest
  have hinit : ∀ s ∈ init, IsPlain s := by
    intro s hs
    have hdrop := congrArg List.dropLast (happend.symm.trans hwhole)
    rw [List.dropLast_concat, List.dropLast_append_of_ne_nil (List.cons_ne_nil _ _)] at hdrop
    exact hbefore s (hdrop ▸ List.mem_append_left _ hs)
  have hne : init ≠ [] ∨ last ≠ [] ∧ last ≠ [46] := by
    by_cases hi : init = []
    · have hname : name = last := by
        rw [← joinSegments_splitOn name, hpieces, hi]
        rfl
      refine .inr ⟨?_, ?_⟩ <;>
        · intro hlast
          rw [hname, hlast] at hlow
          exact absurd hlow (by decide)
    · exact .inl hi
  have hform := headerForm_isPrefix hpieces hinit (hne.imp_right And.left)
  have hread := headerName?_of_pieces hpieces hinit true hne (.inl rfl) hzero
  have hlength : (headerForm name).length ≤ 100 := Nat.le_trans hform.length_le hhigh
  rw [if_pos hlength] at hread
  exact ⟨headerForm name, hread, hlength, fun hmem => hzero (hform.subset hmem)⟩

theorem exists_wholeChars (name : Bytes) :
    ∃ count ≤ 3, wholeChars name = name.take (name.length - count) := by
  unfold wholeChars
  dsimp only
  cases hcut : [0, 1, 2, 3].find? _ with
  | none => exact ⟨0, by decide, rfl⟩
  | some count =>
    refine ⟨count, ?_, rfl⟩
    have hmem := List.mem_of_find?_eq_some hcut
    simp only [List.mem_cons, List.not_mem_nil, or_false] at hmem
    omega

theorem nameRecord?_short {name : Bytes} (h : IsRelative name) (hzero : 0 ∉ name)
    (hlength : name.length ≤ 100) : nameRecord? name = some ([], name) := by
  have hread := headerName?_of_isRelative h hzero
  rw [if_pos hlength] at hread
  rw [nameRecord?, hread]

theorem nameRecord?_long {name : Bytes} (h : IsRelative name) (hzero : 0 ∉ name)
    (hlength : 100 < name.length) :
    ∃ short, nameRecord? name = some (longName name, short) ∧ short.length ≤ 100 ∧ 0 ∉ short := by
  have hread := headerName?_of_isRelative h hzero
  rw [if_neg (Nat.not_le.mpr hlength)] at hread
  obtain ⟨count, hcount, hcut⟩ := exists_wholeChars (name.take 100)
  have hhundred : (name.take 100).length = 100 := by
    rw [List.length_take]
    omega
  rw [hhundred, List.take_take, Nat.min_eq_left (Nat.sub_le 100 count)] at hcut
  have hsplit : name.take (100 - count) ++ name.drop (100 - count) = name := List.take_append_drop ..
  have hcutLength : (name.take (100 - count)).length = 100 - count := by
    rw [List.length_take]
    omega
  obtain ⟨short, hshort, hbound, hclean⟩ := exists_headerName?_cut (hsplit ▸ h)
    (fun hmem => hzero (List.mem_of_mem_take hmem)) (by rw [hcutLength]; omega)
    (by rw [hcutLength]; omega)
  refine ⟨short, ?_, hbound, hclean⟩
  rw [nameRecord?, hread]
  dsimp only
  rw [if_neg (by omega), hcut, hshort, Option.map_some]

theorem nameBytes_append (a b : String) : nameBytes (a ++ b) = nameBytes a ++ nameBytes b := by
  simp only [nameBytes, Text.toUTF8_toList, String.toList_append, List.flatMap_append]

theorem nameBytes_injective : Function.Injective nameBytes := by
  intro a b h
  rw [← String.toList_inj, ← Text.lossyFrom_toUTF8 a, ← Text.lossyFrom_toUTF8 b]
  exact congrArg (Text.lossyFrom none) h

theorem nameBytes_join (all : List String) :
    nameBytes (Text.join "/" all) = [47].intercalate (all.map nameBytes) := by
  have hslash : nameBytes "/" = [47] := by decide
  induction all with
  | nil => decide
  | cons first rest ih =>
    cases rest with
    | nil => exact List.intercalate_singleton.symm
    | cons second more =>
      change nameBytes (first ++ "/" ++ Text.join "/" (second :: more)) = _
      rw [nameBytes_append, nameBytes_append, hslash, ih]
      exact List.intercalate_cons_cons.symm

theorem isPlain_nameBytes {segment : String} (h : Path.IsPlain segment) :
    IsPlain (nameBytes segment) := by
  have hne : ∀ other : String, segment ≠ other → nameBytes segment ≠ nameBytes other :=
    fun _ hother heq => hother (nameBytes_injective heq)
  obtain ⟨hempty, hdot, hdots⟩ := h
  have hempty' := hne "" hempty
  have hdot' := hne "." hdot
  have hdots' := hne ".." hdots
  exact ⟨hempty', hdot', hdots'⟩

theorem zero_notMem_nameBytes {name : String} (h : '\x00' ∉ name.toList) : 0 ∉ nameBytes name :=
  fun hmem => h (Text.mem_of_mem_toUTF8 (by decide) hmem)

section

variable {path : String} (h : Path.IsFilePath path)

include h

theorem splitOn_nameBytes : (nameBytes path).splitOn 47 = (Path.segments path).map nameBytes := by
  obtain ⟨_, hslash⟩ := Path.isFilePath_iff.mp h
  have hjoin := nameBytes_join (Path.segments path)
  rw [Path.join_segments hslash] at hjoin
  rw [hjoin]
  apply List.splitOn_intercalate
  · intro piece hpiece hmem
    obtain ⟨segment, hsegment, rfl⟩ := List.mem_map.mp hpiece
    have hchar := Text.mem_of_mem_toUTF8 (by decide) hmem
    have hmark := Path.noSeparator_of_mem_segments hsegment _ hchar
    exact absurd hmark (by decide)
  · intro hnone
    exact Text.splitList_ne_nil _ _ (List.map_eq_nil_iff.mp (List.map_eq_nil_iff.mp hnone))

theorem exists_splitOn_nameBytes : ∃ init last, (nameBytes path).splitOn 47 = init ++ [last] ∧
    ∀ s ∈ init ++ [last], IsPlain s := by
  have hplain := (Path.isFilePath_iff.mp h).1
  have hpieces := splitOn_nameBytes h
  have hsome := List.splitOn_ne_nil 47 (nameBytes path)
  refine ⟨_, _, (List.dropLast_concat_getLast hsome).symm, ?_⟩
  rw [List.dropLast_concat_getLast hsome, hpieces]
  intro s hs
  obtain ⟨segment, hsegment, rfl⟩ := List.mem_map.mp hs
  exact isPlain_nameBytes (hplain segment hsegment)

theorem isRelative_file : IsRelative (nameBytes path) := by
  obtain ⟨init, last, hpieces, hplain⟩ := exists_splitOn_nameBytes h
  have hlast := hplain last List.mem_concat_self
  exact ⟨init, last, hpieces, fun s hs => hplain s (List.mem_append_left _ hs), .inl hlast⟩

theorem isRelative_directory : IsRelative (nameBytes (path ++ "/")) := by
  obtain ⟨init, last, hpieces, hplain⟩ := exists_splitOn_nameBytes h
  have hslash : nameBytes "/" = [47] := by decide
  have hsplit : (nameBytes (path ++ "/")).splitOn 47 = (init ++ [last]) ++ [[]] := by
    rw [nameBytes_append, hslash, List.splitOn_append_cons_self, hpieces]
    rfl
  exact ⟨init ++ [last], [], hsplit, hplain, .inr ⟨rfl, List.concat_ne_nil _ _⟩⟩

end

end ResourceModels.Archive
