import Mathlib.Data.List.Infix
import Mathlib.Data.List.TakeDrop
import Mathlib.Data.List.TakeWhile
import ResourceModels.Proofs.Text

/-!
# Texts cut at one mark

A text cut at its first or its last mark is the text before the mark, the mark and the text after
it, and there is no mark on the side where the search began. Pieces joined with one mark are joined
with another one when the mark is replaced.
-/

namespace ResourceModels.Text

variable {mark : Char} {s before after : String}

theorem toList_marked (mark : Char) (before after : String) :
    (before ++ String.singleton mark ++ after).toList = before.toList ++ mark :: after.toList := by
  simp

theorem span_mark {chars front rest : List Char} {c : Char} :
    chars.span (· != mark) = (front, c :: rest) ↔
      chars = front ++ mark :: rest ∧ c = mark ∧ mark ∉ front := by
  rw [List.span_eq_takeWhile_dropWhile, Prod.mk.injEq]
  constructor
  · rintro ⟨hfront, hrest⟩
    have hc : c = mark := by
      have hhead := List.head?_dropWhile_not (· != mark) chars
      rw [hrest] at hhead
      simpa using hhead
    have hwhole := List.takeWhile_append_dropWhile (p := (· != mark)) (l := chars)
    rw [hfront, hrest, hc] at hwhole
    refine ⟨hwhole.symm, hc, fun hmem => ?_⟩
    rw [← hfront] at hmem
    simpa using List.mem_takeWhile_imp hmem
  · rintro ⟨rfl, rfl, hfront⟩
    have hkeep : ∀ d ∈ front, (d != c) = true := by
      intro d hd
      simp only [bne_iff_ne]
      rintro rfl
      exact hfront hd
    simp [List.takeWhile_append_of_pos hkeep, List.dropWhile_append_of_pos hkeep]

theorem splitFirst?_eq_some :
    splitFirst? mark s = some (before, after) ↔
      s = before ++ String.singleton mark ++ after ∧ mark ∉ before.toList := by
  constructor
  · intro h
    unfold splitFirst? at h
    split at h
    · cases h
    · next hspan =>
      cases h
      obtain ⟨hs, _, hfirst⟩ := span_mark.mp hspan
      rw [← String.toList_inj, toList_marked, hs]
      simpa using hfirst
  · rintro ⟨rfl, hbefore⟩
    have hspan := span_mark.mpr ⟨toList_marked mark before after, rfl, hbefore⟩
    simp only [splitFirst?, hspan, String.ofList_toList]

theorem splitLast?_eq_some :
    splitLast? mark s = some (before, after) ↔
      s = before ++ String.singleton mark ++ after ∧ mark ∉ after.toList := by
  constructor
  · intro h
    unfold splitLast? at h
    split at h
    · cases h
    · next hspan =>
      cases h
      obtain ⟨hs, _, hlast⟩ := span_mark.mp hspan
      rw [← String.toList_inj, toList_marked, ← List.reverse_inj, hs]
      simpa using hlast
  · rintro ⟨rfl, hafter⟩
    have hreverse : (before ++ String.singleton mark ++ after).toList.reverse =
        after.toList.reverse ++ mark :: before.toList.reverse := by
      simp
    have hspan := span_mark.mpr ⟨hreverse, rfl, by simpa using hafter⟩
    simp only [splitLast?, hspan, List.reverse_reverse, String.ofList_toList]

theorem splitLast?_of_notMem (h : mark ∉ s.toList) : splitLast? mark s = none := by
  cases hcut : splitLast? mark s with
  | none => rfl
  | some pair =>
    obtain ⟨rfl, _⟩ := splitLast?_eq_some.mp hcut
    rw [toList_marked] at h
    exact absurd (List.mem_append_right _ List.mem_cons_self) h

theorem map_join {new : Char} {pieces : List String} (h : ∀ s ∈ pieces, mark ∉ s.toList) :
    String.ofList ((join (String.singleton mark) pieces).toList.map
      fun c => if c = mark then new else c) = join (String.singleton new) pieces := by
  have hkeep : ∀ s : String, mark ∉ s.toList →
      s.toList.map (fun c => if c = mark then new else c) = s.toList := by
    intro s hs
    have hid : ∀ c ∈ s.toList, (if c = mark then new else c) = id c := by
      intro c hc
      apply if_neg
      rintro rfl
      exact hs hc
    rw [List.map_congr_left hid, List.map_id]
  induction pieces with
  | nil => rfl
  | cons first rest ih =>
    have hfirst := hkeep first (h first List.mem_cons_self)
    cases rest with
    | nil => simp only [join, hfirst, String.ofList_toList]
    | cons second more =>
      have hrest := ih fun s hs => h s (List.mem_cons_of_mem _ hs)
      rw [← String.toList_inj, String.toList_ofList] at hrest ⊢
      simp only [join, String.toList_append, List.map_append, hfirst, hrest]
      simp

theorem join_split (mark : Char) (s : String) :
    join (String.singleton mark) (split (· = mark) s) = s := by
  have hmarks : ∀ c ∈ s.toList, decide (c = mark) = true → c = mark := fun c _ hc =>
    of_decide_eq_true hc
  rw [split, join_splitList hmarks, String.ofList_toList]

theorem split_of_join {pieces : List String} (hne : pieces ≠ [])
    (h : ∀ s ∈ pieces, mark ∉ s.toList) :
    split (· = mark) (join (String.singleton mark) pieces) = pieces := by
  refine split_join (decide_eq_true rfl) hne fun s hs c hc => ?_
  rw [decide_eq_false_iff_not]
  rintro rfl
  exact h s hs hc

theorem join_append (mark : String) {front back : List String} (hfront : front ≠ [])
    (hback : back ≠ []) : join mark (front ++ back) = join mark front ++ mark ++ join mark back := by
  induction front with
  | nil => exact absurd rfl hfront
  | cons first rest ih =>
    cases rest with
    | nil =>
      obtain ⟨next, more, rfl⟩ := List.exists_cons_of_ne_nil hback
      rfl
    | cons second more =>
      have hrest := ih (by simp)
      simp only [List.cons_append, join] at hrest ⊢
      simp only [hrest, String.append_assoc]

theorem length_join_reverse (mark : String) (pieces : List String) :
    (join mark pieces.reverse).length = (join mark pieces).length := by
  induction pieces with
  | nil => rfl
  | cons first rest ih =>
    cases rest with
    | nil => rfl
    | cons second more =>
      rw [List.reverse_cons, join_concat mark (by simp)]
      simp only [join, String.length_append, ih]
      omega

end ResourceModels.Text

/-!
## Occurrences in texts

A text contains another one if that is a run of its characters. A piece in which no occurrence
begins is passed over when occurrences are replaced, and so a text stays as it is where there is
nothing to replace. No occurrence reaches into characters that are foreign to it.
-/

namespace ResourceModels.Text

/-- A text without marks prolongs the last piece of the text before it. -/
theorem split_append {isMark : Char → Bool} {tail : String}
    (ht : ∀ c ∈ tail.toList, isMark c = false) (s : String) :
    ∃ init last, split isMark s = init ++ [last] ∧
      split isMark (s ++ tail) = init ++ [last ++ tail] := by
  obtain ⟨init, last, hs, happend⟩ := splitList_append ht s.toList
  refine ⟨init.map String.ofList, String.ofList last, ?_, ?_⟩
  · rw [split, hs, List.map_append, List.map_singleton]
  · rw [split, String.toList_append, happend, List.map_append, List.map_singleton,
      String.ofList_append, String.ofList_toList]

variable {part s tail : List Char}

theorem containsList_iff : containsList part s = true ↔ part <:+: s := by
  induction s with
  | nil => rw [containsList, List.isEmpty_iff, List.infix_nil]
  | cons c rest ih =>
    rw [containsList, Bool.or_eq_true, List.isPrefixOf_iff_prefix, ih, List.infix_cons_iff]

/-- An occurrence of `part` begins in `piece`, which `rest` follows. -/
def StartsIn (part piece rest : List Char) : Prop :=
  ∃ tail, tail ≠ [] ∧ tail <:+ piece ∧ part <+: tail ++ rest

section

variable {piece rest new : List Char}

theorem startsIn_cons {c : Char} : StartsIn part (c :: piece) rest ↔
    part <+: c :: (piece ++ rest) ∨ StartsIn part piece rest := by
  constructor
  · rintro ⟨tail, hne, htail, hpart⟩
    rcases List.suffix_cons_iff.mp htail with rfl | htail
    · exact .inl hpart
    · exact .inr ⟨tail, hne, htail, hpart⟩
  · rintro (hpart | ⟨tail, hne, htail, hpart⟩)
    · exact ⟨c :: piece, List.cons_ne_nil _ _, List.suffix_refl _, hpart⟩
    · exact ⟨tail, hne, htail.trans (List.suffix_cons _ _), hpart⟩

theorem startsIn_singleton {c : Char} : StartsIn part [c] rest ↔ part <+: c :: rest := by
  have hnil : ¬StartsIn part [] rest := by
    rintro ⟨tail, hne, htail, -⟩
    exact hne (List.suffix_nil.mp htail)
  rw [startsIn_cons, List.nil_append, or_iff_left hnil]

/-- No occurrence begins in a piece without the first character of the searched text. -/
theorem not_startsIn_of_notMem {c : Char} (hc : c ∉ piece) : ¬StartsIn (c :: part) piece rest := by
  rintro ⟨tail, hne, htail, hpart⟩
  obtain ⟨d, more, rfl⟩ := List.exists_cons_of_ne_nil hne
  obtain ⟨rfl, -⟩ := List.cons_prefix_cons.mp hpart
  exact hc (htail.subset List.mem_cons_self)

/-- No occurrence begins in a piece whose ends all differ from the searched text. -/
theorem not_startsIn_of_tails
    (h : ∀ tail ∈ piece.tails, tail ≠ [] → ¬part <+: tail ∧ ¬tail <+: part) :
    ¬StartsIn part piece rest := by
  rintro ⟨tail, hne, htail, hpart⟩
  obtain ⟨hin, hover⟩ := h tail ((List.mem_tails _ _).mpr htail) hne
  rcases List.prefix_or_prefix_of_prefix hpart (List.prefix_append tail rest) with hpre | hpre
  · exact hin hpre
  · exact hover hpre

/-- An occurrence that does not begin in the piece in front comes after that. -/
theorem exists_later {before after : List Char} (h : ¬StartsIn part piece rest)
    (htext : piece ++ rest = before ++ part ++ after) :
    ∃ later, before = piece ++ later ∧ rest = later ++ part ++ after := by
  rw [List.append_assoc] at htext
  rcases List.append_eq_append_iff.mp htext with ⟨later, hbefore, hrest⟩ | ⟨tail, hpiece, hpart⟩
  · exact ⟨later, hbefore, by rw [hrest, List.append_assoc]⟩
  · by_cases hne : tail = []
    · rw [hne, List.append_nil] at hpiece
      rw [hne, List.nil_append] at hpart
      exact ⟨[], by rw [hpiece, List.append_nil], hpart.symm⟩
    · exact absurd ⟨tail, hne, ⟨before, hpiece.symm⟩, ⟨after, hpart⟩⟩ h

theorem replaceList_append (h : ¬StartsIn part piece rest) :
    replaceList part new 0 (piece ++ rest) = piece ++ replaceList part new 0 rest := by
  induction piece with
  | nil => rfl
  | cons c piece ih =>
    rw [startsIn_cons, not_or] at h
    have hstart : ¬part.isPrefixOf (c :: (piece ++ rest)) = true := by
      rw [List.isPrefixOf_iff_prefix]
      exact h.1
    rw [List.cons_append, replaceList, if_neg hstart, ih h.2, List.cons_append]

theorem replaceList_eq_drop (skip : Nat) (s : List Char) :
    replaceList part new skip s = replaceList part new 0 (s.drop skip) := by
  induction s generalizing skip with
  | nil => cases skip <;> rfl
  | cons c rest ih =>
    cases skip with
    | zero => rfl
    | succ skip => rw [replaceList, ih, List.drop_succ_cons]

theorem replaceList_self_append (hne : part ≠ []) :
    replaceList part new 0 (part ++ rest) = new ++ replaceList part new 0 rest := by
  obtain ⟨c, more, rfl⟩ := List.exists_cons_of_ne_nil hne
  have hstart : (c :: more).isPrefixOf (c :: (more ++ rest)) = true :=
    List.isPrefixOf_iff_prefix.mpr (List.prefix_append (c :: more) rest)
  rw [List.cons_append, replaceList, if_pos hstart, replaceList_eq_drop, List.length_cons,
    Nat.add_sub_cancel, List.drop_left]

end

theorem replaceList_of_not_infix (new : List Char) (h : ¬part <:+: s) :
    replaceList part new 0 s = s := by
  have hnone : ¬StartsIn part s [] := by
    rintro ⟨tail, _, htail, hpart⟩
    rw [List.append_nil] at hpart
    exact h (hpart.isInfix.trans htail.isInfix)
  have hkept : replaceList part new 0 (s ++ []) = s ++ replaceList part new 0 [] :=
    replaceList_append hnone
  rwa [replaceList, List.append_nil] at hkept

/-- An occurrence in a longer text does not end among characters that it does not have. -/
theorem infix_of_infix_append (hne : part ≠ []) (hforeign : ∀ c ∈ tail, c ∉ part)
    (h : part <:+: s ++ tail) : part <:+: s := by
  obtain ⟨before, after, hwhole⟩ := h
  rw [List.append_assoc] at hwhole
  rcases List.append_eq_append_iff.mp hwhole with ⟨front, rfl, hrest⟩ | ⟨front, rfl, hrest⟩
  · rcases List.append_eq_append_iff.mp hrest with ⟨back, hfront, _⟩ | ⟨back, hpart, htail⟩
    · exact ⟨before, back, by rw [List.append_assoc, hfront]⟩
    · cases back with
      | nil => exact ⟨before, [], by rw [hpart, List.append_nil, List.append_nil]⟩
      | cons c more =>
        have hc : c ∈ part := by simp [hpart]
        have hmem : c ∈ tail := by simp [htail]
        exact absurd hc (hforeign c hmem)
  · obtain ⟨c, more, rfl⟩ := List.exists_cons_of_ne_nil hne
    have hmem : c ∈ tail := by simp [hrest]
    exact absurd List.mem_cons_self (hforeign c hmem)

theorem replace_append_of_not_contains {old text ending : String} (new : String) (hne : old ≠ "")
    (hforeign : ∀ c ∈ ending.toList, c ∉ old.toList) (h : contains old text = false) :
    replace old new (text ++ ending) = text ++ ending := by
  have hnone : ¬old.toList <:+: text.toList := by
    rw [← containsList_iff, Bool.not_eq_true]
    exact h
  have hempty : old.toList ≠ [] := by simpa using hne
  rw [replace, String.toList_append,
    replaceList_of_not_infix _ fun hmem => hnone (infix_of_infix_append hempty hforeign hmem),
    ← String.toList_append, String.ofList_toList]

theorem mem_of_mem_replaceList {new : List Char} {skip : Nat} {c : Char}
    (h : c ∈ replaceList part new skip s) : c ∈ new ∨ c ∈ s := by
  induction s generalizing skip with
  | nil => cases skip <;> cases h
  | cons d rest ih =>
    cases skip with
    | succ skip => exact (ih h).imp_right (List.mem_cons_of_mem _)
    | zero =>
      rw [replaceList] at h
      split at h
      · rcases List.mem_append.mp h with h | h
        · exact .inl h
        · exact (ih h).imp_right (List.mem_cons_of_mem _)
      · rcases List.mem_cons.mp h with rfl | h
        · exact .inr List.mem_cons_self
        · exact (ih h).imp_right (List.mem_cons_of_mem _)

theorem mem_of_mem_replace {old new text : String} {c : Char}
    (h : c ∈ (replace old new text).toList) : c ∈ new.toList ∨ c ∈ text.toList := by
  rw [replace, String.toList_ofList] at h
  exact mem_of_mem_replaceList h

end ResourceModels.Text
