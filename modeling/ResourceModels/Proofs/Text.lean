import Mathlib.Data.List.Basic
import Mathlib.Data.String.Basic
import ResourceModels.Text.Blank

/-!
# Pieces of texts

How the pieces of a text and what follows a given start are found again in the text they come from.
Texts without white space around them are not trimmed.
-/

namespace ResourceModels.Text

variable {isMark : Char → Bool}

/-- A text without marks prolongs the last piece of the text before it. -/
theorem splitList_append {tail : List Char} (ht : ∀ c ∈ tail, isMark c = false) (s : List Char) :
    ∃ init last, splitList isMark s = init ++ [last] ∧
      splitList isMark (s ++ tail) = init ++ [last ++ tail] := by
  induction s with
  | nil =>
    refine ⟨[], [], rfl, ?_⟩
    rw [List.nil_append]
    induction tail with
    | nil => rfl
    | cons c rest ih =>
      have hrest := ih fun d hd => ht d (List.mem_cons_of_mem _ hd)
      rw [splitList, if_neg (by simp [ht c List.mem_cons_self]), hrest]
      rfl
  | cons c rest ih =>
    obtain ⟨init, last, hs, happend⟩ := ih
    by_cases hc : isMark c = true
    · refine ⟨[] :: init, last, ?_, ?_⟩
      · rw [splitList, if_pos hc, hs]
        rfl
      · rw [List.cons_append, splitList, if_pos hc, happend]
        rfl
    · rw [splitList, if_neg hc, hs, List.cons_append, splitList, if_neg hc, happend]
      cases init with
      | nil => exact ⟨[], c :: last, rfl, rfl⟩
      | cons first more => exact ⟨(c :: first) :: more, last, rfl, rfl⟩

theorem mem_of_mem_splitList {s piece : List Char} (h : piece ∈ splitList isMark s) :
    ∀ c ∈ piece, c ∈ s := by
  induction s generalizing piece with
  | nil => simp_all [splitList]
  | cons d rest ih =>
    simp only [splitList] at h
    split at h
    · rcases List.mem_cons.mp h with rfl | h
      · simp
      · exact fun c hc => List.mem_cons_of_mem _ (ih h c hc)
    · split at h
      · next hnil => exact absurd hnil (splitList_ne_nil isMark rest)
      · next first more hsplit =>
        rw [hsplit] at ih
        rcases List.mem_cons.mp h with rfl | h
        · intro c hc
          rcases List.mem_cons.mp hc with rfl | hc
          · exact List.mem_cons_self
          · exact List.mem_cons_of_mem _ (ih List.mem_cons_self c hc)
        · exact fun c hc => List.mem_cons_of_mem _ (ih (List.mem_cons_of_mem _ h) c hc)

theorem noMark_of_mem_splitList {s piece : List Char} (h : piece ∈ splitList isMark s) :
    ∀ c ∈ piece, isMark c = false := by
  induction s generalizing piece with
  | nil => simp_all [splitList]
  | cons d rest ih =>
    simp only [splitList] at h
    split at h
    · rcases List.mem_cons.mp h with rfl | h
      · simp
      · exact ih h
    · next hd =>
      split at h
      · next hnil => exact absurd hnil (splitList_ne_nil isMark rest)
      · next first more hsplit =>
        rw [hsplit] at ih
        rcases List.mem_cons.mp h with rfl | h
        · intro c hc
          rcases List.mem_cons.mp hc with rfl | hc
          · simpa using hd
          · exact ih List.mem_cons_self c hc
        · exact ih (List.mem_cons_of_mem _ h)

theorem splitList_append_mark {mark : Char} (hmark : isMark mark = true) (s rest : List Char) :
    splitList isMark (s ++ mark :: rest) = splitList isMark s ++ splitList isMark rest := by
  induction s with
  | nil => simp [splitList, hmark]
  | cons c more ih =>
    simp only [List.cons_append, splitList, ih]
    cases hsplit : splitList isMark more with
    | nil => exact absurd hsplit (splitList_ne_nil isMark more)
    | cons first others => split <;> rfl

theorem splitList_of_noMark {s : List Char} (h : ∀ c ∈ s, isMark c = false) :
    splitList isMark s = [s] := by
  induction s with
  | nil => rfl
  | cons c rest ih =>
    have hrest := ih fun d hd => h d (List.mem_cons_of_mem _ hd)
    simp [splitList, h c List.mem_cons_self, hrest]

theorem noMark_of_mem_split {s piece : String} (h : piece ∈ split isMark s) :
    ∀ c ∈ piece.toList, isMark c = false := by
  obtain ⟨chars, hchars, rfl⟩ := List.mem_map.mp h
  rw [String.toList_ofList]
  exact noMark_of_mem_splitList hchars

theorem split_append_mark {mark : Char} (hmark : isMark mark = true) (s rest : String) :
    split isMark (s ++ String.singleton mark ++ rest) = split isMark s ++ split isMark rest := by
  have htext : (s ++ String.singleton mark ++ rest).toList = s.toList ++ mark :: rest.toList := by
    simp
  rw [split, htext, splitList_append_mark hmark, List.map_append]
  rfl

theorem split_of_noMark {s : String} (h : ∀ c ∈ s.toList, isMark c = false) :
    split isMark s = [s] := by
  rw [split, splitList_of_noMark h, List.map_singleton, String.ofList_toList]

/-- Pieces without marks are found again in the text that is joined from them. -/
theorem split_join {mark : Char} (hmark : isMark mark = true) {pieces : List String}
    (hne : pieces ≠ []) (h : ∀ s ∈ pieces, ∀ c ∈ s.toList, isMark c = false) :
    split isMark (join (String.singleton mark) pieces) = pieces := by
  induction pieces with
  | nil => exact absurd rfl hne
  | cons first rest ih =>
    have hfirst := split_of_noMark (h first List.mem_cons_self)
    cases rest with
    | nil => exact hfirst
    | cons second more =>
      have hrest := ih (by simp) fun s hs => h s (List.mem_cons_of_mem _ hs)
      rw [join, split_append_mark hmark, hfirst, hrest, List.singleton_append]
      exact List.cons_ne_nil _ _

theorem join_cons_char (mark : String) (c : Char) (piece : List Char) (rest : List String) :
    join mark (String.ofList (c :: piece) :: rest) =
      String.singleton c ++ join mark (String.ofList piece :: rest) := by
  have hfirst : String.ofList (c :: piece) = String.singleton c ++ String.ofList piece := by
    rw [← String.toList_inj]
    simp
  cases rest with
  | nil => exact hfirst
  | cons next more => simp only [join, hfirst, String.append_assoc]

/-- A text is joined again from its pieces if there is only one kind of mark in it. -/
theorem join_splitList {mark : Char} {s : List Char}
    (h : ∀ c ∈ s, isMark c = true → c = mark) :
    join (String.singleton mark) ((splitList isMark s).map String.ofList) = String.ofList s := by
  induction s with
  | nil => rfl
  | cons c rest ih =>
    have hrest := ih fun d hd => h d (List.mem_cons_of_mem _ hd)
    have hc : String.ofList (c :: rest) = String.singleton c ++ String.ofList rest := by
      rw [← String.toList_inj]
      simp
    simp only [splitList]
    cases hsplit : splitList isMark rest with
    | nil => exact absurd hsplit (splitList_ne_nil isMark rest)
    | cons first more =>
      rw [hsplit] at hrest
      split
      · next hmark =>
        rw [hc, ← hrest, h c List.mem_cons_self hmark]
        simp [join]
      · rw [List.map_cons, join_cons_char, ← List.map_cons, hrest, hc]

theorem mem_of_mem_join {mark : String} {pieces : List String} {c : Char}
    (h : c ∈ (join mark pieces).toList) : c ∈ mark.toList ∨ ∃ s ∈ pieces, c ∈ s.toList := by
  induction pieces with
  | nil => simp [join] at h
  | cons first rest ih =>
    cases rest with
    | nil => exact .inr ⟨first, List.mem_singleton_self _, h⟩
    | cons next more =>
      simp only [join, String.toList_append, List.mem_append] at h
      rcases h with (h | h) | h
      · exact .inr ⟨first, List.mem_cons_self, h⟩
      · exact .inl h
      · obtain hmark | ⟨s, hs, hmem⟩ := ih h
        · exact .inl hmark
        · exact .inr ⟨s, List.mem_cons_of_mem _ hs, hmem⟩

theorem mem_join_of_mem {mark piece : String} {pieces : List String} {c : Char} (h : piece ∈ pieces)
    (hc : c ∈ piece.toList) : c ∈ (join mark pieces).toList := by
  induction pieces with
  | nil => cases h
  | cons first rest ih =>
    cases rest with
    | nil => exact List.mem_singleton.mp h ▸ hc
    | cons next more =>
      simp only [join, String.toList_append, List.mem_append]
      rcases List.mem_cons.mp h with rfl | h
      · exact .inl (.inl hc)
      · exact .inr (ih h)

theorem map_replace_of_notMem {c d : Char} {s : List Char} (h : c ∉ s) :
    s.map (fun x => if x = c then d else x) = s := by
  have hkeep : ∀ x ∈ s, (if x = c then d else x) = id x := fun x hx =>
    if_neg (ne_of_mem_of_not_mem hx h)
  rw [List.map_congr_left hkeep, List.map_id]

theorem join_concat (mark : String) {pieces : List String} (h : pieces ≠ []) (piece : String) :
    join mark (pieces ++ [piece]) = join mark pieces ++ mark ++ piece := by
  induction pieces with
  | nil => exact absurd rfl h
  | cons first rest ih =>
    cases rest with
    | nil => rfl
    | cons second more =>
      have hrest := ih (by simp)
      simp only [List.cons_append, join] at hrest ⊢
      rw [hrest]
      simp only [String.append_assoc]

theorem join_ne_empty (mark : String) {piece : String} (h : piece ≠ "") (rest : List String) :
    join mark (piece :: rest) ≠ "" := by
  cases rest with
  | nil => exact h
  | cons next more => simp [join, String.append_eq_empty_iff, h]

theorem endsWith_append (s tail : String) : endsWith tail (s ++ tail) = true := by
  simp [endsWith]

theorem isPrefixOf?_eq_some {start s rest : List Char} :
    start.isPrefixOf? s = some rest ↔ s = start ++ rest := by
  induction start generalizing s with
  | nil => simp [List.isPrefixOf?]
  | cons c more ih =>
    cases s with
    | nil => simp [List.isPrefixOf?]
    | cons d s =>
      by_cases hc : c = d
      · simp [List.isPrefixOf?, hc, ih]
      · simp [List.isPrefixOf?, hc, Ne.symm hc]

theorem after?_eq_some {start s rest : String} : after? start s = some rest ↔ s = start ++ rest := by
  unfold after?
  constructor
  · intro h
    obtain ⟨cs, hcs, rfl⟩ := Option.map_eq_some_iff.mp h
    rw [← String.toList_inj, isPrefixOf?_eq_some.mp hcs, String.toList_append, String.toList_ofList]
  · rintro rfl
    rw [isPrefixOf?_eq_some.mpr (String.toList_append ..), Option.map_some, String.ofList_toList]

theorem not_append_lt (start rest : List Char) : ¬start ++ rest < start := by
  induction start with
  | nil => exact List.not_lt_nil _
  | cons c more ih =>
    rw [List.cons_append, List.cons_lt_cons_iff, not_or, not_and]
    exact ⟨lt_irrefl c, fun _ => ih⟩

/-- What lies between a text and a longer one that begins with it begins with it too. -/
theorem prefix_of_between {start s : List Char} (rest : List Char) (hlow : ¬s < start)
    (hhigh : ¬start ++ rest < s) : start <+: s := by
  induction start generalizing s with
  | nil => exact List.nil_prefix
  | cons c more ih =>
    cases s with
    | nil => exact absurd (List.nil_lt_cons c more) hlow
    | cons d s =>
      rw [List.cons_lt_cons_iff, not_or, not_and] at hlow
      rw [List.cons_append, List.cons_lt_cons_iff, not_or, not_and] at hhigh
      have hcd : c = d := le_antisymm (not_lt.mp hlow.1) (not_lt.mp hhigh.1)
      subst hcd
      exact List.cons_prefix_cons.mpr ⟨rfl, ih (hlow.2 rfl) (hhigh.2 rfl)⟩

/-- The last mark of a text cuts it in one way only. -/
theorem eq_of_last_mark {α : Type} {mark : α} {before before' after after' : List α}
    (ha : mark ∉ after) (ha' : mark ∉ after')
    (h : before ++ mark :: after = before' ++ mark :: after') : before = before' ∧ after = after' := by
  rcases List.append_eq_append_iff.mp h with ⟨between, rfl, hafter⟩ | ⟨between, rfl, hafter⟩
  · cases between with
    | nil => simpa using hafter
    | cons c rest =>
      have hmem : mark ∈ after := by simp [List.tail_eq_of_cons_eq hafter]
      exact absurd hmem ha
  · cases between with
    | nil => simpa [eq_comm] using hafter
    | cons c rest =>
      have hmem : mark ∈ after' := by simp [List.tail_eq_of_cons_eq hafter]
      exact absurd hmem ha'

theorem startsWith_iff {start s : String} :
    startsWith start s = true ↔ start.toList <+: s.toList := List.isPrefixOf_iff_prefix

theorem endsWith_iff {tail s : String} : endsWith tail s = true ↔ ∃ rest, s = rest ++ tail := by
  rw [endsWith, List.isSuffixOf_iff_suffix]
  constructor
  · rintro ⟨rest, hrest⟩
    exact ⟨String.ofList rest, by rw [← String.toList_inj, String.toList_append, ← hrest,
      String.toList_ofList]⟩
  · rintro ⟨rest, rfl⟩
    exact ⟨rest.toList, (String.toList_append ..).symm⟩

theorem contains_append (part rest : String) : contains part (part ++ rest) = true := by
  have hprefix : part.toList.isPrefixOf (part ++ rest).toList = true := by
    rw [List.isPrefixOf_iff_prefix, String.toList_append]
    exact List.prefix_append _ _
  rw [contains]
  cases htext : (part ++ rest).toList with
  | nil =>
    have hpart : part.toList = [] := List.prefix_nil.mp
      (htext ▸ List.isPrefixOf_iff_prefix.mp hprefix)
    rw [hpart]
    rfl
  | cons c more =>
    rw [htext] at hprefix
    rw [containsList, hprefix, Bool.true_or]

theorem dropEnd_of_none {p : Char → Bool} {s : List Char} (h : ∀ c ∈ s, p c = false) :
    dropEnd p s = s := by
  have hdrop : s.reverse.dropWhile p = s.reverse := by
    cases hs : s.reverse with
    | nil => rfl
    | cons c rest =>
      have hc : c ∈ s := List.mem_reverse.mp (hs ▸ List.mem_cons_self)
      rw [List.dropWhile_cons_of_neg (by simp [h c hc])]
  rw [dropEnd, hdrop, List.reverse_reverse]

theorem trim_of_noBlank {s : String} (h : ∀ c ∈ s.toList, isBlank c = false) : trim s = s := by
  have hdrop : s.toList.dropWhile isBlank = s.toList := by
    cases hs : s.toList with
    | nil => rfl
    | cons c rest =>
      have hc : c ∈ s.toList := hs ▸ List.mem_cons_self
      rw [List.dropWhile_cons_of_neg (by simp [h c hc])]
  rw [trim, hdrop, dropEnd_of_none h, String.ofList_toList]

end ResourceModels.Text

/-!
## Numbers in texts

A number can be read off its decimal digits, also where something that is no digit follows them.
-/

namespace ResourceModels.Text

theorem toString_nat_injective : Function.Injective (toString : Nat → String) := by
  intro m n h
  have hl := congrArg String.toList h
  simp only [Nat.toString_eq_repr, Nat.toList_repr] at hl
  simpa using congrArg (fun cs => Nat.ofDigitChars 10 cs 0) hl

theorem isDigit_of_mem_toString {n : Nat} {c : Char} (h : c ∈ (toString n).toList) :
    c.isDigit = true := by
  rw [Nat.toString_eq_repr, Nat.toList_repr] at h
  exact Nat.isDigit_of_mem_toDigits (by omega) (by omega) h

theorem takeWhile_isDigit_toString (n : Nat) {c : Char} (hc : c.isDigit = false)
    (rest : List Char) :
    ((toString n).toList ++ c :: rest).takeWhile Char.isDigit = (toString n).toList := by
  rw [List.takeWhile_append_of_pos fun d hd => isDigit_of_mem_toString hd,
    List.takeWhile_cons_of_neg (by simp [hc]), List.append_nil]

theorem toString_nat_inj_of_append {m n : Nat} {c d : Char} (hc : c.isDigit = false)
    (hd : d.isDigit = false) {rest rest' : List Char}
    (h : (toString m).toList ++ c :: rest = (toString n).toList ++ d :: rest') : m = n := by
  have hdigits := congrArg (List.takeWhile Char.isDigit) h
  rw [takeWhile_isDigit_toString m hc, takeWhile_isDigit_toString n hd, String.toList_inj] at hdigits
  exact toString_nat_injective hdigits

end ResourceModels.Text
