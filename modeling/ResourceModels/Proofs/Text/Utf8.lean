import Mathlib.Data.List.Basic
import ResourceModels.Text.Lossy

/-!
# Bytes of texts

Encoding a text and decoding its bytes, whatever they are, gives the text back. A byte below 128
stands in the bytes of a text only for the character of that number.
-/

namespace ResourceModels.Text

theorem toUTF8_toList (s : String) :
    s.toUTF8.data.toList = s.toList.flatMap String.utf8EncodeChar := by
  conv => lhs; rw [← s.ofList_toList]
  rw [String.toUTF8_eq_toByteArray, String.toByteArray_ofList]
  simp [List.utf8Encode]

theorem toNat_ofNat_next {d : Nat} (hd : d < 64) : (UInt8.ofNat (d + 128)).toNat = d + 128 :=
  UInt8.toNat_ofNat_of_lt' (by change d + 128 < 256; omega)

theorem range_next {low high : UInt8} {d : Nat} (hd : d < 64) (hlow : low.toNat ≤ d + 128)
    (hhigh : d + 128 ≤ high.toNat) :
    low ≤ UInt8.ofNat (d + 128) ∧ UInt8.ofNat (d + 128) ≤ high := by
  rw [UInt8.le_iff_toNat_le, UInt8.le_iff_toNat_le, toNat_ofNat_next hd]
  exact ⟨hlow, hhigh⟩

/-- A following byte carries six bits of the character begun before it. -/
theorem lossyFrom_next {n v d : Nat} {low high : UInt8} (hd : d < 64) (hlow : low.toNat ≤ d + 128)
    (hhigh : d + 128 ≤ high.toNat) (rest : List UInt8) :
    lossyFrom (some ⟨n + 2, low, high, v⟩) (UInt8.ofNat (d + 128) :: rest) =
      lossyFrom (some ⟨n + 1, 0x80, 0xBF, v * 64 + d⟩) rest := by
  have hrange := range_next hd hlow hhigh
  have hvalue : d + 128 - 128 = d := by omega
  rw [lossyFrom, if_pos hrange, toNat_ofNat_next hd]
  simp only [hvalue, Nat.reduceEqDiff, if_false]
  rfl

theorem lossyFrom_last {v d : Nat} {low high : UInt8} (hd : d < 64) (hlow : low.toNat ≤ d + 128)
    (hhigh : d + 128 ≤ high.toNat) (rest : List UInt8) :
    lossyFrom (some ⟨1, low, high, v⟩) (UInt8.ofNat (d + 128) :: rest) =
      Char.ofNat (v * 64 + d) :: lossyFrom none rest := by
  have hrange := range_next hd hlow hhigh
  have hvalue : d + 128 - 128 = d := by omega
  rw [lossyFrom, if_pos hrange, toNat_ofNat_next hd]
  simp only [hvalue, if_true]

theorem lossyFrom_start {b : UInt8} {p : Pending} (h : Start.ofByte b = .pending p)
    (rest : List UInt8) : lossyFrom none (b :: rest) = lossyFrom (some p) rest := by
  rw [lossyFrom, h]

theorem ofByte_one {v : Nat} (h : v ≤ 127) : Start.ofByte (UInt8.ofNat v) = .char (Char.ofNat v) := by
  have hb : (UInt8.ofNat v).toNat = v := UInt8.toNat_ofNat_of_lt' (by change v < 256; omega)
  unfold Start.ofByte
  simp only [hb]
  rw [if_pos (by omega)]

theorem ofByte_two {v : Nat} (hlow : 127 < v) (hhigh : v ≤ 2047) :
    Start.ofByte (UInt8.ofNat (v / 64 % 32 + 192)) = .pending ⟨1, 0x80, 0xBF, v / 64⟩ := by
  have hb : (UInt8.ofNat (v / 64 % 32 + 192)).toNat = v / 64 + 192 := by
    rw [UInt8.toNat_ofNat_of_lt' (by change v / 64 % 32 + 192 < 256; omega)]
    omega
  unfold Start.ofByte
  simp only [hb]
  rw [if_neg (by omega), if_neg (by omega), if_pos (by omega)]
  simp

/-- The first byte of three bounds the second one, which keeps out short forms and surrogates. -/
theorem ofByte_three {v : Nat} (hlow : 2047 < v) (hhigh : v ≤ 65535) (hv : v.isValidChar) :
    ∃ low high, Start.ofByte (UInt8.ofNat (v / 4096 % 16 + 224)) =
        .pending ⟨2, low, high, v / 4096⟩ ∧
      low.toNat ≤ v / 64 % 64 + 128 ∧ v / 64 % 64 + 128 ≤ high.toNat := by
  have hb : (UInt8.ofNat (v / 4096 % 16 + 224)).toNat = v / 4096 + 224 := by
    rw [UInt8.toNat_ofNat_of_lt' (by change v / 4096 % 16 + 224 < 256; omega)]
    omega
  unfold Nat.isValidChar at hv
  unfold Start.ofByte
  simp only [hb]
  rw [if_neg (by omega), if_neg (by omega), if_neg (by omega)]
  by_cases hfirst : v / 4096 = 0
  · refine ⟨0xA0, 0xBF, ?_, ?_, ?_⟩
    · rw [if_pos (by omega), hfirst]
    · change 160 ≤ _
      omega
    · change _ ≤ 191
      omega
  by_cases hsurrogate : v / 4096 = 13
  · refine ⟨0x80, 0x9F, ?_, ?_, ?_⟩
    · rw [if_neg (by omega), if_pos (by omega), hsurrogate]
    · change 128 ≤ _
      omega
    · change _ ≤ 159
      omega
  · refine ⟨0x80, 0xBF, ?_, ?_, ?_⟩
    · rw [if_neg (by omega), if_neg (by omega), if_pos (by omega), Nat.add_sub_cancel]
    · change 128 ≤ _
      omega
    · change _ ≤ 191
      omega

theorem ofByte_four {v : Nat} (hlow : 65535 < v) (hhigh : v < 1114112) :
    ∃ low high, Start.ofByte (UInt8.ofNat (v / 262144 % 8 + 240)) =
        .pending ⟨3, low, high, v / 262144⟩ ∧
      low.toNat ≤ v / 4096 % 64 + 128 ∧ v / 4096 % 64 + 128 ≤ high.toNat := by
  have hb : (UInt8.ofNat (v / 262144 % 8 + 240)).toNat = v / 262144 + 240 := by
    rw [UInt8.toNat_ofNat_of_lt' (by change v / 262144 % 8 + 240 < 256; omega)]
    omega
  unfold Start.ofByte
  simp only [hb]
  rw [if_neg (by omega), if_neg (by omega), if_neg (by omega), if_neg (by omega),
    if_neg (by omega), if_neg (by omega)]
  by_cases hfirst : v / 262144 = 0
  · refine ⟨0x90, 0xBF, ?_, ?_, ?_⟩
    · rw [if_pos (by omega), hfirst]
    · change 144 ≤ _
      omega
    · change _ ≤ 191
      omega
  by_cases hlast : v / 262144 = 4
  · refine ⟨0x80, 0x8F, ?_, ?_, ?_⟩
    · rw [if_neg (by omega), if_neg (by omega), if_pos (by omega), hlast]
    · change 128 ≤ _
      omega
    · change _ ≤ 143
      omega
  · refine ⟨0x80, 0xBF, ?_, ?_, ?_⟩
    · rw [if_neg (by omega), if_pos (by omega), Nat.add_sub_cancel]
    · change 128 ≤ _
      omega
    · change _ ≤ 191
      omega

theorem lossyFrom_utf8EncodeChar (c : Char) (rest : List UInt8) :
    lossyFrom none (String.utf8EncodeChar c ++ rest) = c :: lossyFrom none rest := by
  have hvalid : c.val.toNat.isValidChar := c.valid
  have hc : ∀ n, n = c.val.toNat → Char.ofNat n = c := by
    rintro n rfl
    exact c.ofNat_toNat
  unfold String.utf8EncodeChar
  simp only
  generalize c.val.toNat = v at hvalid hc ⊢
  have hmax : v < 1114112 := by
    unfold Nat.isValidChar at hvalid
    omega
  by_cases h1 : v ≤ 127
  · rw [if_pos h1, List.cons_append, List.nil_append, lossyFrom, ofByte_one h1]
    simp only [hc v rfl]
  rw [if_neg h1]
  have next : ∀ d : Nat, d % 64 + 128 ≤ (0xBF : UInt8).toNat ∧ (0x80 : UInt8).toNat ≤ d % 64 + 128 := by
    intro d
    change _ ≤ 191 ∧ 128 ≤ _
    omega
  have bits : ∀ d : Nat, d % 64 < 64 := fun d => Nat.mod_lt d (by decide)
  -- The first byte carries what is left of the number above six bits for each byte that follows.
  by_cases h2 : v ≤ 2047
  · rw [if_pos h2, List.cons_append, List.cons_append, List.nil_append,
      lossyFrom_start (ofByte_two (by omega) h2), lossyFrom_last (bits v) (next v).2 (next v).1,
      hc _ (by omega)]
  rw [if_neg h2]
  by_cases h3 : v ≤ 65535
  · obtain ⟨low, high, hstart, hlow, hhigh⟩ := ofByte_three (by omega) h3 hvalid
    rw [if_pos h3, List.cons_append, List.cons_append, List.cons_append, List.nil_append,
      lossyFrom_start hstart, lossyFrom_next (bits _) hlow hhigh,
      lossyFrom_last (bits v) (next v).2 (next v).1, hc _ (by omega)]
  · obtain ⟨low, high, hstart, hlow, hhigh⟩ := ofByte_four (by omega) hmax
    rw [if_neg h3, List.cons_append, List.cons_append, List.cons_append, List.cons_append,
      List.nil_append, lossyFrom_start hstart, lossyFrom_next (bits _) hlow hhigh,
      lossyFrom_next (bits _) (next _).2 (next _).1,
      lossyFrom_last (bits v) (next v).2 (next v).1, hc _ (by omega)]

theorem lossyFrom_toUTF8 (s : String) : lossyFrom none s.toUTF8.data.toList = s.toList := by
  rw [toUTF8_toList]
  induction s.toList with
  | nil => rfl
  | cons c rest ih => rw [List.flatMap_cons, lossyFrom_utf8EncodeChar, ih]

/-- A byte below 128 is a character of its own. -/
theorem eq_of_mem_utf8EncodeChar {b : UInt8} {c : Char} (hb : b.toNat < 128)
    (h : b ∈ String.utf8EncodeChar c) : c.toNat = b.toNat := by
  have hlarge : ∀ n, 128 ≤ n → n < 256 → b ≠ UInt8.ofNat n := by
    rintro n hlow hhigh rfl
    rw [UInt8.toNat_ofNat_of_lt' hhigh] at hb
    omega
  unfold String.utf8EncodeChar at h
  change c.val.toNat = _
  simp only at h
  generalize c.val.toNat = v at h ⊢
  by_cases h1 : v ≤ 127
  · rw [if_pos h1, List.mem_singleton] at h
    rw [h, UInt8.toNat_ofNat_of_lt' (by change v < 256; omega)]
  exfalso
  rw [if_neg h1] at h
  split at h
  · simp only [List.mem_cons, List.not_mem_nil, or_false] at h
    rcases h with h | h <;> exact hlarge _ (by omega) (by omega) h
  split at h
  · simp only [List.mem_cons, List.not_mem_nil, or_false] at h
    rcases h with h | h | h <;> exact hlarge _ (by omega) (by omega) h
  · simp only [List.mem_cons, List.not_mem_nil, or_false] at h
    rcases h with h | h | h | h <;> exact hlarge _ (by omega) (by omega) h

theorem mem_of_mem_toUTF8 {s : String} {b : UInt8} (hb : b.toNat < 128)
    (h : b ∈ s.toUTF8.data.toList) : Char.ofNat b.toNat ∈ s.toList := by
  rw [toUTF8_toList] at h
  obtain ⟨c, hc, hmem⟩ := List.mem_flatMap.mp h
  rw [← eq_of_mem_utf8EncodeChar hb hmem, Char.ofNat_toNat]
  exact hc

theorem utf8EncodeChar_ofNat {b : UInt8} (hb : b.toNat < 128) :
    String.utf8EncodeChar (Char.ofNat b.toNat) = [b] := by
  have hvalid : b.toNat.isValidChar := by
    unfold Nat.isValidChar
    omega
  have hval : (Char.ofNat b.toNat).val.toNat = b.toNat := by
    rw [Char.ofNat, dif_pos hvalid]
    rfl
  unfold String.utf8EncodeChar
  simp only [hval]
  rw [if_pos (by omega), UInt8.ofNat_toNat]

/-- Bytes below 128 are the text of the characters of their numbers. -/
theorem decode?_of_ascii {bytes : List UInt8} (h : ∀ b ∈ bytes, b.toNat < 128) :
    decode? ⟨bytes.toArray⟩ = some (String.ofList (bytes.map fun b => Char.ofNat b.toNat)) := by
  have hbytes : (bytes.map fun b => Char.ofNat b.toNat).flatMap String.utf8EncodeChar = bytes := by
    induction bytes with
    | nil => rfl
    | cons b rest ih =>
      have hb := utf8EncodeChar_ofNat (h b List.mem_cons_self)
      have hrest := ih fun c hc => h c (List.mem_cons_of_mem _ hc)
      rw [List.map_cons, List.flatMap_cons, hb, hrest, List.singleton_append]
  have htext : encode (String.ofList (bytes.map fun b => Char.ofNat b.toNat)) =
      ⟨bytes.toArray⟩ := by
    apply ByteArray.ext
    apply Array.toList_inj.mp
    rw [encode, toUTF8_toList, String.toList_ofList, hbytes]
  rw [← htext, decode?_encode]

end ResourceModels.Text
