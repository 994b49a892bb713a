import ResourceModels.Proofs.Go.TypeNames

/-!
# Exported names

A name is exported if it is a capital followed by letters and digits. The exported form of a text
that has letters or digits is one. The short name of a component begins with whatever its last part
begins with, which may be a digit, so it is one exactly if that is not.
-/

namespace ResourceModels.Go

def isExportedList : List Char → Bool
  | [] => false
  | first :: rest => first.isUpper && rest.all Char.isAlphanum

/-- A capital that letters and digits follow. -/
def IsExported (name : String) : Prop := isExportedList name.toList = true

instance : DecidablePred IsExported := fun name =>
  inferInstanceAs (Decidable (isExportedList name.toList = true))

def HasLetters (name : String) : Prop := ∃ c ∈ name.toList, c.isAlphanum = true

instance : DecidablePred HasLetters := fun name =>
  decidable_of_iff (name.toList.any Char.isAlphanum = true) List.any_eq_true

/-- The first letter or digit of a text is a digit. -/
def LeadsWithDigit (name : String) : Prop :=
  ∃ c, name.toList.find? Char.isAlphanum = some c ∧ c.isDigit = true

section

variable {name : String} {text : List Char}

theorem isDigit_of_ge {c : Char} (h : 'A'.val ≤ c.val) : c.isDigit = false := by
  have hlow : 65 ≤ c.val.toNat := h
  have hnine : '9'.val.toNat = 57 := rfl
  rw [Char.isDigit, Bool.and_eq_false_iff]
  refine .inr (decide_eq_false fun hle => ?_)
  rw [UInt32.le_iff_toNat_le] at hle
  omega

theorem isDigit_toUpper (c : Char) : c.toUpper.isDigit = c.isDigit := by
  cases hc : c.isLower with
  | false => rw [toUpper_of_not_isLower hc]
  | true =>
    have hupper := isUpper_toUpper hc
    simp only [Char.isLower, Char.isUpper, Bool.and_eq_true, decide_eq_true_eq] at hc hupper
    have hlower : 'A'.val ≤ c.val := UInt32.le_trans (by decide) hc.1
    rw [isDigit_of_ge hupper.1, isDigit_of_ge hlower]

theorem isUpper_of_isAlphanum {c : Char} (h : c.isAlphanum = true) (hdigit : c.isDigit = false) :
    c.toUpper.isUpper = true := by
  cases hc : c.isLower with
  | true => exact isUpper_toUpper hc
  | false =>
    rw [toUpper_of_not_isLower hc]
    simpa [Char.isAlphanum, Char.isAlpha, hc, hdigit] using h

theorem letters_cons (c : Char) (rest : List Char) :
    letters (c :: rest) =
      if c.isAlphanum then c.toUpper :: (letters (c :: rest)).tail else letters rest := by
  cases hc : c.isAlphanum with
  | false => simp [letters, Text.splitList, hc, capitalized]
  | true =>
    simp only [letters, Text.splitList, hc, Bool.not_true, Bool.false_eq_true, if_false, if_true]
    split <;> rfl

theorem head?_letters (text : List Char) :
    (letters text).head? = (text.find? Char.isAlphanum).map Char.toUpper := by
  induction text with
  | nil => rfl
  | cons c rest ih =>
    rw [letters_cons, List.find?_cons]
    cases c.isAlphanum with
    | true => rfl
    | false => exact ih

theorem letters_append_dot (before last : List Char) :
    letters (before ++ '.' :: last) = letters before ++ letters last := by
  rw [letters, Text.splitList_append_mark (by decide), List.flatMap_append]
  rfl

theorem hasLetters_iff : HasLetters name ↔ ∃ c rest, letters name.toList = c :: rest := by
  have hhead := head?_letters name.toList
  constructor
  · rintro ⟨c, hc, halnum⟩
    cases hl : letters name.toList with
    | nil =>
      rw [hl, List.head?_nil, eq_comm, Option.map_eq_none_iff, List.find?_eq_none] at hhead
      exact absurd halnum (hhead c hc)
    | cons first rest => exact ⟨first, rest, rfl⟩
  · rintro ⟨first, rest, hl⟩
    rw [hl, List.head?_cons, eq_comm] at hhead
    obtain ⟨c, hc, _⟩ := Option.map_eq_some_iff.mp hhead
    exact ⟨c, List.mem_of_find?_eq_some hc, List.find?_some hc⟩

theorem leadsWithDigit_iff {first : Char} {rest : List Char}
    (h : letters name.toList = first :: rest) : LeadsWithDigit name ↔ first.isDigit = true := by
  have hhead := head?_letters name.toList
  rw [h, List.head?_cons, eq_comm] at hhead
  obtain ⟨c, hc, rfl⟩ := Option.map_eq_some_iff.mp hhead
  simp only [LeadsWithDigit, hc, Option.some.injEq, exists_eq_left', isDigit_toUpper]

theorem isUpper_of_letters {first : Char} {rest : List Char} (h : letters text = first :: rest)
    (hdigit : first.isDigit = false) : first.isUpper = true := by
  have hhead := head?_letters text
  rw [h, List.head?_cons, eq_comm] at hhead
  obtain ⟨c, hc, rfl⟩ := Option.map_eq_some_iff.mp hhead
  rw [isDigit_toUpper] at hdigit
  exact isUpper_of_isAlphanum (List.find?_some hc) hdigit

theorem isExported_iff : IsExported name ↔
    ∃ first rest, name.toList = first :: rest ∧ first.isUpper = true ∧
      ∀ c ∈ rest, c.isAlphanum = true := by
  unfold IsExported
  cases name.toList with
  | nil => simp [isExportedList]
  | cons first rest => simp [isExportedList]

theorem IsExported.isAlphanumeric (h : IsExported name) : IsAlphanumeric name := by
  obtain ⟨first, rest, hname, hfirst, hrest⟩ := isExported_iff.mp h
  intro c hc
  rw [hname] at hc
  rcases List.mem_cons.mp hc with rfl | hc
  · simp [Char.isAlphanum, Char.isAlpha, hfirst]
  · exact hrest c hc

theorem IsExported.append (h : IsExported name) {other : String} (ho : IsAlphanumeric other) :
    IsExported (name ++ other) := by
  obtain ⟨first, rest, hname, hfirst, hrest⟩ := isExported_iff.mp h
  refine isExported_iff.mpr ⟨first, rest ++ other.toList, ?_, hfirst, fun c hc => ?_⟩
  · rw [String.toList_append, hname, List.cons_append]
  · exact (List.mem_append.mp hc).elim (hrest c) (ho c)

theorem isExported_exported (h : HasLetters name) : IsExported (exported name) := by
  obtain ⟨first, rest, hl⟩ := hasLetters_iff.mp h
  have hmem := isAlphanum_of_mem_letters name.toList
  rw [hl] at hmem
  rw [isExported_iff, exported_eq, String.toList_ofList, hl, lettered]
  split
  · exact ⟨'N', first :: rest, rfl, by decide, hmem⟩
  · next hdigit =>
    exact ⟨first, rest, rfl, isUpper_of_letters hl (by simpa using hdigit),
      fun c hc => hmem c (List.mem_cons_of_mem _ hc)⟩

theorem exported_eq_empty_iff : exported name = "" ↔ ¬HasLetters name := by
  rw [hasLetters_iff, exported_eq]
  cases letters name.toList with
  | nil => simp [lettered]
  | cons first rest =>
    simp only [lettered]
    split <;> simp [← String.toList_inj]

/-- A number at the end of a name does not change whether it is exported. -/
theorem isExported_unique_iff (h : IsAlphanumeric name) (taken : List String) :
    IsExported (unique taken name) ↔ IsExported name := by
  rcases unique_cases taken name with ⟨heq, _⟩ | ⟨n, heq, _⟩
  · rw [heq]
  · rw [heq]
    refine ⟨fun hexported => ?_, fun hexported => hexported.append (isAlphanumeric_toString _)⟩
    obtain ⟨first, rest, hname, hfirst, hrest⟩ := isExported_iff.mp hexported
    rw [String.toList_append] at hname
    cases hl : name.toList with
    | nil =>
      -- only the number is left, and no digit is a capital
      rw [hl, List.nil_append] at hname
      have hdigit := Text.isDigit_of_mem_toString (n := n + 2) (hname ▸ List.mem_cons_self)
      have hupper : 'A'.val ≤ first.val := by
        simp only [Char.isUpper, decide_eq_true_eq] at hfirst
        exact hfirst.1
      rw [isDigit_of_ge hupper] at hdigit
      cases hdigit
    | cons c more =>
      rw [hl, List.cons_append, List.cons.injEq] at hname
      refine isExported_iff.mpr ⟨c, more, hl, hname.1 ▸ hfirst, fun d hd => h d ?_⟩
      rw [hl]
      exact List.mem_cons_of_mem _ hd

end

section

variable {before last : String}

theorem lettered_append {text : List Char} (h : text ≠ []) (more : List Char) :
    lettered (text ++ more) = lettered text ++ more := by
  obtain ⟨c, rest, rfl⟩ := List.exists_cons_of_ne_nil h
  simp only [List.cons_append, lettered]
  split <;> rfl

theorem exported_dotted (before last : String) : exported (before ++ "." ++ last) =
    String.ofList (lettered (letters before.toList ++ letters last.toList)) := by
  have htext : (before ++ "." ++ last).toList = before.toList ++ '.' :: last.toList := by simp
  rw [exported_eq, htext, letters_append_dot]

/-- What is left of a dotted name are the letters of its last part, whatever they begin with. -/
theorem shortName_dotted (hdot : '.' ∉ last.toList) (hlast : HasLetters last) :
    shortName (before ++ "." ++ last) =
      if HasLetters before then String.ofList (letters last.toList) else exported last := by
  obtain ⟨c, rest, hl⟩ := hasLetters_iff.mp hlast
  have hcut : Text.splitLast? '.' (before ++ "." ++ last) = some (before, last) :=
    Text.splitLast?_eq_some.mpr ⟨rfl, hdot⟩
  unfold shortName
  simp only [hcut, exported_dotted]
  by_cases hbefore : HasLetters before
  · rw [if_pos hbefore]
    obtain ⟨d, more, hb⟩ := hasLetters_iff.mp hbefore
    have hafter : Text.after? (exported before)
        (String.ofList (lettered (letters before.toList ++ letters last.toList))) =
          some (String.ofList (letters last.toList)) := by
      rw [Text.after?_eq_some, lettered_append (by simp [hb]), String.ofList_append, exported_eq]
    have hne : String.ofList (letters last.toList) ≠ "" := by simp [hl, ← String.toList_inj]
    rw [hafter]
    exact if_neg hne
  · rw [if_neg hbefore]
    have hb : letters before.toList = [] := by
      by_contra hne
      obtain ⟨d, more, hb⟩ := List.exists_cons_of_ne_nil hne
      exact hbefore (hasLetters_iff.mpr ⟨d, more, hb⟩)
    have hafter : Text.after? (exported before) (exported last) = some (exported last) := by
      rw [Text.after?_eq_some, exported_eq before, hb]
      rfl
    rw [hb, List.nil_append, ← exported_eq, hafter]
    exact if_neg fun h => exported_eq_empty_iff.mp h hlast

theorem shortName_eq_exported_iff (hdot : '.' ∉ last.toList) (hlast : HasLetters last) :
    shortName (before ++ "." ++ last) = exported last ↔
      ¬(HasLetters before ∧ LeadsWithDigit last) := by
  obtain ⟨c, rest, hl⟩ := hasLetters_iff.mp hlast
  rw [shortName_dotted hdot hlast, exported_eq, hl, lettered, leadsWithDigit_iff hl]
  by_cases hbefore : HasLetters before
  · by_cases hdigit : c.isDigit = true
    · simp [hbefore, hdigit, ← String.toList_inj]
    · simp [hbefore, hdigit]
  · simp [hbefore]

/-- The short name of a component is exported if its last part does not begin with a digit. -/
theorem isExported_shortName_iff (hdot : '.' ∉ last.toList) (hlast : HasLetters last) :
    IsExported (shortName (before ++ "." ++ last)) ↔
      shortName (before ++ "." ++ last) = exported last := by
  refine ⟨fun h => ?_, fun h => h ▸ isExported_exported hlast⟩
  rw [shortName_eq_exported_iff hdot hlast]
  rintro ⟨hbefore, hdigit⟩
  obtain ⟨c, rest, hl⟩ := hasLetters_iff.mp hlast
  rw [shortName_dotted hdot hlast, if_pos hbefore, hl, isExported_iff] at h
  obtain ⟨first, more, hname, hfirst, _⟩ := h
  rw [String.toList_ofList, List.cons.injEq] at hname
  rw [leadsWithDigit_iff hl, hname.1] at hdigit
  simp only [Char.isUpper, decide_eq_true_eq] at hfirst
  rw [isDigit_of_ge hfirst.1] at hdigit
  cases hdigit

/-- A text of letters and digits alone is shortened to its exported form. -/
theorem isExported_shortName {name : String} (h : IsAlphanumeric name) (hne : name ≠ "") :
    IsExported (shortName name) := by
  have hcut : Text.splitLast? '.' name = none := Text.splitLast?_of_notMem h.dot_notMem
  have hletters : HasLetters name := by
    obtain ⟨c, hc⟩ := List.exists_mem_of_ne_nil name.toList (by simpa using hne)
    exact ⟨c, hc, h c hc⟩
  unfold shortName
  rw [hcut]
  exact isExported_exported hletters

end

/-!
## Names that begin with no small letter

The types of the language begin with a small letter. What is named after components and properties
never does, even where it begins with a digit or is empty.
-/

def IsCapital (name : String) : Prop := ∀ c ∈ name.toList.head?, c.isLower = false

section

theorem IsCapital.append {name other : String} (h : IsCapital name) (ho : IsCapital other) :
    IsCapital (name ++ other) := by
  intro c hc
  rw [String.toList_append, List.head?_append, Option.mem_def, Option.or_eq_some_iff] at hc
  exact hc.elim (h c) fun hc => ho c hc.2

end

end ResourceModels.Go
