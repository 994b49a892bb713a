import Mathlib
import ResourceModels.Text.Lower

/-!
# What small letters bring in

Small letters bring in letters, and marks beyond ASCII. So a mark of ASCII stands in a text in small
letters only where it stood in the text.
-/

namespace ResourceModels.Text.Lower

variable {c d : Char} {n m : Nat}

theorem exists_of_small? {table : List (Nat × Nat × Nat × Nat)} (h : small? n table = some m) :
    ∃ row ∈ table, row.1 ≤ n ∧ n ≤ row.2.1 ∧ m = row.2.2.2 + (n - row.1) := by
  induction table with
  | nil => cases h
  | cons row rest ih =>
    obtain ⟨first, last, step, small⟩ := row
    rw [small?] at h
    split at h
    · next hrow => exact ⟨_, List.mem_cons_self, hrow.1, hrow.2.1, (Option.some.inj h).symm⟩
    · obtain ⟨row, hrow, hsmall⟩ := ih h
      exact ⟨row, List.mem_cons_of_mem _ hrow, hsmall⟩

/-- Of the characters beyond ASCII only the sign of the kelvin has its small form within. -/
theorem letters_beyond : ∀ row ∈ letters,
    0x80 ≤ row.2.2.2 ∨ (row.1 = row.2.1 ∧ row.2.2.2 = 'k'.toNat) := by decide +kernel

theorem beyond_of_small? (h : small? n letters = some m) : 0x80 ≤ m ∨ m = 'k'.toNat := by
  obtain ⟨row, hrow, hlow, hhigh, rfl⟩ := exists_of_small? h
  have hbeyond := letters_beyond row hrow
  omega

/-- A mark of ASCII is none of its letters. -/
structure IsMark (c : Char) : Prop where
  ascii : c.toNat < 0x80
  ne_zero : c.toNat ≠ 0
  notLetter : c.isAlpha = false

instance (c : Char) : Decidable (IsMark c) :=
  decidable_of_iff (c.toNat < 0x80 ∧ c.toNat ≠ 0 ∧ c.isAlpha = false)
    ⟨fun ⟨h, h', h''⟩ => ⟨h, h', h''⟩, fun ⟨h, h', h''⟩ => ⟨h, h', h''⟩⟩

theorem IsMark.ne (hc : IsMark c) (hd : ¬IsMark d) : c ≠ d := by
  rintro rfl
  exact hd hc

theorem eq_of_mem_ofChar (hc : IsMark c) (h : c ∈ ofChar d) : c = d := by
  unfold ofChar at h
  split at h
  · obtain rfl := List.mem_singleton.mp h
    have hletter : d.isAlpha = false := by rw [← Char.isAlpha_toLower_eq_isAlpha, hc.notLetter]
    have hcapital : ¬d.isUpper = true := fun hd => by simp [Char.isAlpha, hd] at hletter
    exact Char.toLower_eq_of_not_isUpper hcapital
  split at h
  · rw [List.mem_cons, List.mem_singleton] at h
    exact absurd h (not_or.mpr ⟨hc.ne (by decide), hc.ne (by decide)⟩)
  split at h
  · next n hn =>
    obtain rfl := List.mem_singleton.mp h
    have hascii := hc.ascii
    have hvalue := hc.ne_zero
    rw [Char.toNat_ofNat] at hascii hvalue
    split at hvalue
    · next hvalid =>
      rw [if_pos hvalid] at hascii
      rcases beyond_of_small? hn with hbeyond | rfl
      · omega
      · exact absurd hc (by decide)
    · exact absurd rfl hvalue
  · exact List.mem_singleton.mp h

theorem mem_of_mem_ofList (hc : IsMark c) {before s : List Char} (h : c ∈ ofList before s) :
    c ∈ s := by
  induction s generalizing before with
  | nil => exact h
  | cons d rest ih =>
    rw [List.mem_cons]
    rw [ofList] at h
    split at h
    · have hsigma : c ≠ if goesOn before && !goesOn rest then 'ς' else 'σ' := by
        split
        · exact hc.ne (by decide)
        · exact hc.ne (by decide)
      exact .inr (ih ((List.mem_cons.mp h).resolve_left hsigma))
    · exact (List.mem_append.mp h).imp (eq_of_mem_ofChar hc) ih

end ResourceModels.Text.Lower

namespace ResourceModels.Text

theorem mem_of_mem_lower {c : Char} (hc : Lower.IsMark c) {s : String}
    (h : c ∈ (lower s).toList) : c ∈ s.toList := by
  rw [lower, String.toList_ofList] at h
  exact Lower.mem_of_mem_ofList hc h

end ResourceModels.Text
