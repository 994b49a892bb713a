import Mathlib.Data.List.Basic
import ResourceModels.Glob

/-!
# What a pattern matches

A pattern matches a text that can be cut into pieces of which each token stands for one. The matcher
tries what a token can leave of a text, so it finds such a cut if there is one.
-/

namespace ResourceModels.Glob

/-- What a token stands for where `rest` follows. Whole segments end before a slash or where the
text ends. -/
def Token.Stands (rest : List Char) : Token → List Char → Prop
  | .char c, piece => piece = [c]
  | .any, piece => ∃ c, piece = [c] ∧ c ≠ '/'
  | .within ranges, piece => ∃ c, piece = [c] ∧ c ≠ '/' ∧ ∃ r ∈ ranges, Range.holds c r = true
  | .without ranges, piece => ∃ c, piece = [c] ∧ c ≠ '/' ∧ ∀ r ∈ ranges, Range.holds c r = false
  | .anyRun, piece => '/' ∉ piece
  | .anySegments, piece => piece = [] ∨ piece.getLast? = some '/' ∨ rest = []

inductive Matches : Pattern → List Char → Prop
  | nil : Matches [] []
  | cons {token : Token} {pattern : Pattern} {piece rest : List Char}
      (h : token.Stands rest piece) (hrest : Matches pattern rest) :
      Matches (token :: pattern) (piece ++ rest)

variable {token : Token} {pattern : Pattern} {s piece rest : List Char}

theorem matches_nil_iff : Matches [] s ↔ s = [] := by
  constructor
  · intro h
    cases h
    rfl
  · rintro rfl
    exact .nil

theorem matches_cons_iff : Matches (token :: pattern) s ↔
    ∃ piece rest, s = piece ++ rest ∧ token.Stands rest piece ∧ Matches pattern rest := by
  constructor
  · intro h
    cases h with
    | cons h hrest => exact ⟨_, _, rfl, h, hrest⟩
  · rintro ⟨piece, rest, rfl, h, hrest⟩
    exact .cons h hrest

theorem mem_afterRun : rest ∈ afterRun s ↔ ∃ piece, s = piece ++ rest ∧ '/' ∉ piece := by
  induction s with
  | nil => simp [afterRun]
  | cons c s ih =>
    simp only [afterRun, List.mem_cons]
    constructor
    · rintro (rfl | h)
      · exact ⟨[], rfl, List.not_mem_nil⟩
      split at h
      · cases h
      · next hc =>
        obtain ⟨piece, rfl, hpiece⟩ := ih.mp h
        exact ⟨c :: piece, rfl, by simpa [hpiece] using Ne.symm hc⟩
    · rintro ⟨piece, hcut, hpiece⟩
      cases piece with
      | nil => exact .inl hcut.symm
      | cons d piece =>
        obtain ⟨rfl, hrest⟩ := List.cons_eq_cons.mp hcut
        obtain ⟨hc, hpiece⟩ := not_or.mp (List.mem_cons.not.mp hpiece)
        rw [if_neg (Ne.symm hc)]
        exact .inr (ih.mpr ⟨piece, hrest, hpiece⟩)

theorem mem_afterSlashes_cons {c : Char} :
    rest ∈ afterSlashes (c :: s) ↔ (c = '/' ∧ rest = s) ∨ rest ∈ afterSlashes s := by
  rw [afterSlashes]
  split
  · next hc => rw [List.mem_cons, and_iff_right hc]
  · next hc => rw [or_iff_right fun h => hc h.1]

theorem mem_afterSlashes : rest ∈ afterSlashes s ↔
    ∃ piece, s = piece ++ rest ∧ (piece.getLast? = some '/' ∨ rest = []) := by
  induction s with
  | nil => simp [afterSlashes]
  | cons c s ih =>
    rw [mem_afterSlashes_cons, ih]
    constructor
    · rintro (⟨rfl, rfl⟩ | ⟨piece, rfl, hpiece⟩)
      · exact ⟨['/'], rfl, .inl rfl⟩
      · refine ⟨c :: piece, rfl, hpiece.imp_left fun hlast => ?_⟩
        rw [List.getLast?_cons, hlast, Option.getD_some]
    · rintro ⟨piece, hcut, hpiece⟩
      cases piece with
      | nil =>
        obtain rfl := hpiece.resolve_left (by simp)
        cases hcut
      | cons d piece =>
        obtain ⟨rfl, rfl⟩ := List.cons_eq_cons.mp hcut
        rcases hpiece with hlast | rfl
        · cases hend : piece.getLast? with
          | none =>
            obtain rfl := List.getLast?_eq_none_iff.mp hend
            exact .inl ⟨Option.some.inj hlast, rfl⟩
          | some last =>
            rw [List.getLast?_cons, hend, Option.getD_some] at hlast
            exact .inr ⟨piece, rfl, .inl (hend.trans hlast)⟩
        · exact .inr ⟨piece, rfl, .inr rfl⟩

theorem stands_iff_accepts (hrun : token ≠ .anyRun) (hsegments : token ≠ .anySegments) :
    token.Stands rest piece ↔ ∃ c, piece = [c] ∧ token.accepts c = true := by
  cases token with
  | anyRun => contradiction
  | anySegments => contradiction
  | char a =>
    simp only [Token.Stands, Token.accepts, beq_iff_eq]
    exact ⟨fun h => ⟨a, h, rfl⟩, fun ⟨c, h, hc⟩ => hc ▸ h⟩
  | any => simp [Token.Stands, Token.accepts]
  | within ranges => simp [Token.Stands, Token.accepts]
  | without ranges => simp [Token.Stands, Token.accepts]

/-- The matcher finds a cut of the text exactly if there is one. -/
theorem matchesList_iff : matchesList pattern s = true ↔ Matches pattern s := by
  induction pattern generalizing s with
  | nil => rw [matchesList, List.isEmpty_iff, matches_nil_iff]
  | cons token pattern ih =>
    rw [matches_cons_iff]
    by_cases hrun : token = .anyRun
    · subst hrun
      simp only [matchesList, List.any_eq_true, ih, mem_afterRun, Token.Stands]
      constructor
      · rintro ⟨rest, ⟨piece, hcut, hpiece⟩, hrest⟩
        exact ⟨piece, rest, hcut, hpiece, hrest⟩
      · rintro ⟨piece, rest, hcut, hpiece, hrest⟩
        exact ⟨rest, ⟨piece, hcut, hpiece⟩, hrest⟩
    by_cases hsegments : token = .anySegments
    · subst hsegments
      simp only [matchesList, List.any_eq_true, ih, List.mem_cons, mem_afterSlashes, Token.Stands]
      constructor
      · rintro ⟨rest, rfl | ⟨piece, hcut, hpiece⟩, hrest⟩
        · exact ⟨[], rest, rfl, .inl rfl, hrest⟩
        · exact ⟨piece, rest, hcut, .inr hpiece, hrest⟩
      · rintro ⟨piece, rest, hcut, hpiece | hpiece, hrest⟩
        · exact ⟨rest, .inl (by rw [hcut, hpiece]; rfl), hrest⟩
        · exact ⟨rest, .inr ⟨piece, hcut, hpiece⟩, hrest⟩
    simp only [stands_iff_accepts hrun hsegments]
    cases s with
    | nil => simp [matchesList]
    | cons c s =>
      simp only [matchesList, Bool.and_eq_true, ih]
      constructor
      · rintro ⟨hc, hs⟩
        exact ⟨[c], s, rfl, ⟨c, rfl, hc⟩, hs⟩
      · rintro ⟨_, rest, hcut, ⟨d, rfl, hd⟩, hrest⟩
        obtain ⟨rfl, rfl⟩ := List.cons_eq_cons.mp hcut
        exact ⟨hd, hrest⟩

/-- A star alone matches the texts without a slash. -/
theorem matches_star_iff : Matches [.anyRun] s ↔ '/' ∉ s := by
  simp only [matches_cons_iff, matches_nil_iff, Token.Stands]
  constructor
  · rintro ⟨piece, _, rfl, hpiece, rfl⟩
    rwa [List.append_nil]
  · exact fun h => ⟨s, [], (List.append_nil s).symm, h, rfl⟩

end ResourceModels.Glob
