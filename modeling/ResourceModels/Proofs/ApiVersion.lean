import Mathlib.Data.List.Induction
import Mathlib.Data.List.TakeDrop
import Mathlib.Data.List.TakeWhile
import ResourceModels.ApiVersion
import ResourceModels.Proofs.Text
import ResourceModels.Text.Number

/-!
# Numbers as they are written

Digits spell a number, and with their count they are known from it. So a number is recognized only
in the one form that it is written in, without zeros in front.
-/

namespace ResourceModels.Text

theorem ofDigits_concat (s : List Char) (c : Char) :
    ofDigits (s ++ [c]) = ofDigits s * 10 + (c.toNat - 48) := by
  simp [ofDigits]

theorem ofDigits_toString (n : Nat) : ofDigits (toString n).toList = n := by
  have hzero : '0'.toNat = 48 := rfl
  have hvalue := Nat.ofDigitChars_toDigits (b := 10) (n := n) (by omega) (by omega)
  rw [Nat.ofDigitChars_eq_foldl] at hvalue
  rw [Nat.toString_eq_repr, Nat.toList_repr, ofDigits]
  simpa only [mul_comm, hzero] using hvalue

/-- Of the digits that spell a number there is one list of each length. -/
theorem ofDigits_inj_of_length {s t : List Char} (hs : ∀ c ∈ s, c.isDigit = true)
    (ht : ∀ c ∈ t, c.isDigit = true) (hlength : s.length = t.length)
    (h : ofDigits s = ofDigits t) : s = t := by
  induction s using List.reverseRecOn generalizing t with
  | nil => exact (List.length_eq_zero_iff.mp hlength.symm).symm
  | append_singleton s c ih =>
    obtain rfl | ⟨t, d, rfl⟩ := List.eq_nil_or_concat t
    · simp at hlength
    · rw [List.concat_eq_append] at ht hlength h ⊢
      rw [ofDigits_concat, ofDigits_concat] at h
      have hc := Char.isDigit_iff_toNat.mp (hs c (by simp))
      have hd := Char.isDigit_iff_toNat.mp (ht d (by simp))
      simp only [Char.reduceToNat] at hc hd
      have hlast : c = d := Char.toNat_inj.mp (by omega)
      have hfront : s = t := ih (fun e he => hs e (by simp [he])) (fun e he => ht e (by simp [he]))
        (by simpa using hlength) (by omega)
      rw [hfront, hlast]

end ResourceModels.Text

/-!
# Recognized versions

A recognized version is the letter `v`, a major number and what may stand after it. There is one way
to read a text so, and all texts that can be read so are listed.
-/

namespace ResourceModels.ApiVersion

variable {s stage : String} {digits : List Char} {n : Nat}

theorem major?_eq_some_iff (hdigits : ∀ c ∈ digits, c.isDigit = true) :
    major? digits = some n ↔ digits = (toString n).toList ∧ n < Nat.pow 2 32 := by
  have hvalue : digits.foldl (fun n d => n * 10 + (d.toNat - '0'.toNat)) 0 =
      Text.ofDigits digits := rfl
  unfold major?
  simp only [hvalue]
  constructor
  · intro h
    split at h
    · cases h
    · split at h
      · next hcanonical =>
        obtain rfl := Option.some.inj h
        refine ⟨?_, hcanonical.1⟩
        exact Text.ofDigits_inj_of_length hdigits (fun c => Text.isDigit_of_mem_toString)
          hcanonical.2.symm (Text.ofDigits_toString _).symm
      · cases h
  · rintro ⟨rfl, hsmall⟩
    have hne : (toString n).toList.isEmpty = false := by
      rw [Nat.toString_eq_repr, Nat.toList_repr, List.isEmpty_eq_false_iff]
      exact Nat.toDigits_ne_nil
    rw [hne, Text.ofDigits_toString]
    simp only [hsmall, String.length_toList, and_self, if_true, Bool.false_eq_true, if_false]

/-- What may stand after a major number: nothing, or a stage and its number. -/
def MayFollow (major : Nat) (stage : String) : Prop :=
  (stage = "" ∧ 1 ≤ major ∧ major ≤ 10) ∨
    (1 ≤ major ∧ major ≤ 3) ∧ ∃ word ∈ ["alpha", "beta"], ∃ minor, 1 ≤ minor ∧ minor ≤ 5 ∧
      stage = word ++ toString minor

/-- A text that is spelled out by a major number and what may stand after it. -/
def IsSpelled (s : String) : Prop :=
  ∃ major stage, s = "v" ++ toString major ++ stage ∧ MayFollow major stage

theorem exists_minor_iff {minor : String} :
    minor ∈ ["1", "2", "3", "4", "5"] ↔ ∃ n, 1 ≤ n ∧ n ≤ 5 ∧ minor = toString n := by
  constructor
  · intro h
    simp only [List.mem_cons, List.not_mem_nil, or_false] at h
    rcases h with rfl | rfl | rfl | rfl | rfl
    exacts [⟨1, by decide⟩, ⟨2, by decide⟩, ⟨3, by decide⟩, ⟨4, by decide⟩, ⟨5, by decide⟩]
  · rintro ⟨n, hlow, hhigh, rfl⟩
    have hall : ∀ n ≤ 5, 1 ≤ n → toString n ∈ ["1", "2", "3", "4", "5"] := by decide
    exact hall n hhigh hlow

theorem isStage_iff : isStage stage = true ↔ ∃ word ∈ ["alpha", "beta"],
    ∃ minor, 1 ≤ minor ∧ minor ≤ 5 ∧ stage = word ++ toString minor := by
  have hread : isStage stage = true ↔ ∃ minor ∈ ["1", "2", "3", "4", "5"],
      (Text.after? "alpha" stage).or (Text.after? "beta" stage) = some minor := by
    unfold isStage
    split
    · next minor hminor => simp [hminor]
    · next hnone => simp [hnone]
  rw [hread]
  constructor
  · rintro ⟨minor, hminor, hafter⟩
    obtain ⟨n, hlow, hhigh, rfl⟩ := exists_minor_iff.mp hminor
    rcases Option.or_eq_some_iff.mp hafter with hafter | ⟨_, hafter⟩
    · exact ⟨"alpha", by simp, n, hlow, hhigh, Text.after?_eq_some.mp hafter⟩
    · exact ⟨"beta", by simp, n, hlow, hhigh, Text.after?_eq_some.mp hafter⟩
  · rintro ⟨word, hword, n, hlow, hhigh, rfl⟩
    refine ⟨toString n, exists_minor_iff.mpr ⟨n, hlow, hhigh, rfl⟩, ?_⟩
    rw [Option.or_eq_some_iff, Text.after?_eq_some, Text.after?_eq_some]
    simp only [List.mem_cons, List.not_mem_nil, or_false] at hword
    rcases hword with rfl | rfl
    · exact .inl rfl
    · exact .inr ⟨by simp [Text.after?, List.isPrefixOf?], rfl⟩

/-- The digits in front end where something that is no digit follows. -/
theorem span_toString (n : Nat) {rest : List Char}
    (hrest : ∀ c ∈ rest.head?, c.isDigit = false) :
    ((toString n).toList ++ rest).span Char.isDigit = ((toString n).toList, rest) := by
  have hdigits : ∀ c ∈ (toString n).toList, c.isDigit = true := fun c =>
    Text.isDigit_of_mem_toString
  rw [List.span_eq_takeWhile_dropWhile, List.takeWhile_append_of_pos hdigits,
    List.dropWhile_append_of_pos hdigits]
  cases rest with
  | nil => simp
  | cons c more =>
    have hc : ¬c.isDigit = true := by simp [hrest c rfl]
    rw [List.takeWhile_cons_of_neg hc, List.dropWhile_cons_of_neg hc, List.append_nil]

theorem MayFollow.not_isDigit (h : MayFollow n stage) :
    ∀ c ∈ stage.toList.head?, c.isDigit = false := by
  rcases h with ⟨rfl, -⟩ | ⟨-, word, hword, minor, -, -, rfl⟩
  · simp
  · simp only [List.mem_cons, List.not_mem_nil, or_false] at hword
    rcases hword with rfl | rfl <;> simp [Char.isDigit]

theorem MayFollow.major_le (h : MayFollow n stage) : n ≤ 10 := by
  rcases h with ⟨-, -, h⟩ | ⟨⟨-, h⟩, -⟩ <;> omega

/-- Whether what was read after the digits may stand there. -/
theorem mayFollow_iff : (if stage.toList.isEmpty then 1 ≤ n && n ≤ 10
    else 1 ≤ n && n ≤ 3 && isStage stage : Bool) = true ↔ MayFollow n stage := by
  rw [MayFollow, ← isStage_iff]
  by_cases hempty : stage = ""
  · subst hempty
    simp [isStage, Text.after?, List.isPrefixOf?]
  · simp [hempty]

theorem isKnown_iff_isSpelled : isKnown s = true ↔ IsSpelled s := by
  constructor
  · intro h
    unfold isKnown at h
    split at h
    · next rest hs =>
      rw [List.span_eq_takeWhile_dropWhile] at h
      dsimp only at h
      split at h
      · cases h
      · next major hmajor =>
        obtain ⟨hfront, -⟩ := (major?_eq_some_iff fun c => List.mem_takeWhile_imp).mp hmajor
        have hrest := List.takeWhile_append_dropWhile (p := Char.isDigit) (l := rest)
        rw [hfront] at hrest
        have htext : (text (rest.dropWhile Char.isDigit)).toList = rest.dropWhile Char.isDigit :=
          String.toList_ofList
        refine ⟨major, text (rest.dropWhile Char.isDigit), ?_, mayFollow_iff.mp ?_⟩
        · rw [← String.toList_inj, hs]
          simpa [htext] using hrest.symm
        · rwa [htext]
    · cases h
  · rintro ⟨major, stage, rfl, hfollow⟩
    have hs : ("v" ++ toString major ++ stage).toList =
        'v' :: ((toString major).toList ++ stage.toList) := by simp
    have hmajor : major? (toString major).toList = some major := by
      refine (major?_eq_some_iff fun c => Text.isDigit_of_mem_toString).mpr ⟨rfl, ?_⟩
      exact hfollow.major_le.trans_lt (by decide)
    rw [isKnown, hs]
    simp only [span_toString major hfollow.not_isDigit, hmajor, text, String.ofList_toList]
    exact mayFollow_iff.mpr hfollow

theorem mem_known_iff_isSpelled : s ∈ known ↔ IsSpelled s := by
  have hrange : ∀ bound k, (∃ m < bound, m + 1 = k) ↔ 1 ≤ k ∧ k ≤ bound := by
    intro bound k
    constructor
    · rintro ⟨m, hm, rfl⟩
      omega
    · exact fun h => ⟨k - 1, by omega, by omega⟩
  simp only [known, List.mem_append, List.mem_map, List.mem_flatMap, List.mem_range]
  constructor
  · rintro (⟨m, hm, rfl⟩ | ⟨word, hword, m, hm, k, hk, rfl⟩)
    · exact ⟨m + 1, "", by simp, .inl ⟨rfl, by omega, by omega⟩⟩
    · exact ⟨m + 1, word ++ toString (k + 1), by rw [← String.append_assoc],
        .inr ⟨by omega, word, hword, k + 1, by omega, by omega, rfl⟩⟩
  · rintro ⟨major, stage, rfl, ⟨rfl, hmajor⟩ | ⟨hmajor, word, hword, minor, hlow, hhigh, rfl⟩⟩
    · obtain ⟨m, hm, rfl⟩ := (hrange 10 major).mpr hmajor
      exact .inl ⟨m, hm, by simp⟩
    · obtain ⟨m, hm, rfl⟩ := (hrange 3 major).mpr hmajor
      obtain ⟨k, hk, rfl⟩ := (hrange 5 minor).mpr ⟨hlow, hhigh⟩
      exact .inr ⟨word, hword, m, hm, k, hk, by rw [← String.append_assoc]⟩

/-- A recognized version is made of letters and digits. -/
theorem isAlphanum_of_isKnown {c : Char} (h : isKnown s = true) (hc : c ∈ s.toList) :
    c.isAlphanum = true := by
  have hwords : ∀ word ∈ ["v", "alpha", "beta"], word.toList.all Char.isAlphanum = true := by decide
  have hdigits : ∀ n : Nat, c ∈ (toString n).toList → c.isAlphanum = true := by
    intro n hmem
    rw [Char.isAlphanum, Text.isDigit_of_mem_toString hmem, Bool.or_true]
  obtain ⟨major, stage, rfl, hfollow⟩ := isKnown_iff_isSpelled.mp h
  simp only [String.toList_append, List.mem_append] at hc
  rcases hc with (hc | hc) | hc
  · exact List.all_eq_true.mp (hwords "v" List.mem_cons_self) c hc
  · exact hdigits major hc
  · rcases hfollow with ⟨rfl, -⟩ | ⟨-, word, hword, minor, -, -, rfl⟩
    · cases hc
    · rw [String.toList_append, List.mem_append] at hc
      rcases hc with hc | hc
      · exact List.all_eq_true.mp (hwords word (List.mem_cons_of_mem _ hword)) c hc
      · exact hdigits minor hc

/-- A text is recognized as a version exactly if it is listed as one. -/
theorem isKnown_iff_mem_known (s : String) : isKnown s = true ↔ s ∈ known :=
  isKnown_iff_isSpelled.trans mem_known_iff_isSpelled.symm

example : isKnown "v3beta5" = true ∧ isKnown "v01" = false ∧ isKnown "v4294967297" = false ∧
    isKnown "v1alpha11" = false := by
  decide

end ResourceModels.ApiVersion
