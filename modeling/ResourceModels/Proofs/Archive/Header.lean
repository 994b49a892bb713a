import ResourceModels.Archive.Field
import ResourceModels.Archive.Reading
import ResourceModels.Proofs.Text
import ResourceModels.Proofs.Text.Utf8

/-!
# What headers hold

The fields of a written header, numbers among them, are what the reader finds there.
-/

/-!
## Number fields of headers

A field of octal digits is read back modulo the power of eight that its width allows. A size is read
back whatever form it takes.
-/

namespace ResourceModels.Archive

theorem length_octal (width n : Nat) : (octal width n).length = width := by
  induction width generalizing n with
  | zero => rfl
  | succ width ih => rw [octal, List.length_append, ih, List.length_singleton]

theorem length_octalField (width n : Nat) (h : width ≠ 0) :
    (octalField width n).length = width := by
  rw [octalField, List.length_append, length_octal, List.length_singleton]
  omega

theorem length_bigEndian (width n : Nat) : (bigEndian width n).length = width := by
  induction width generalizing n with
  | zero => rfl
  | succ width ih => rw [bigEndian, List.length_append, ih, List.length_singleton]

theorem length_mark (b : Bytes) : (mark b).length = b.length := by
  cases b with
  | nil => rfl
  | cons first rest => rfl

theorem length_numberField (width n : Nat) (h : width ≠ 0) :
    (numberField width n).length = width := by
  unfold numberField
  split
  · rw [length_mark, length_bigEndian]
  · exact length_octalField width n h

theorem exists_of_mem_octal {width n : Nat} {b : UInt8} (h : b ∈ octal width n) :
    ∃ k < 8, b = (48 + k).toUInt8 := by
  induction width generalizing n with
  | zero => exact absurd h List.not_mem_nil
  | succ width ih =>
    rcases List.mem_append.mp h with h | h
    · exact ih h
    · exact ⟨n % 8, Nat.mod_lt n (by decide), List.mem_singleton.mp h⟩

theorem toNat_digit {k : Nat} (hk : k < 8) : ((48 + k).toUInt8).toNat = 48 + k :=
  UInt8.toNat_ofNat_of_lt' (by change 48 + k < 256; omega)

theorem upToZero_append_zeros {b : Bytes} (h : 0 ∉ b) (count : Nat) :
    upToZero (b ++ zeros count) = b := by
  induction b with
  | nil => cases count <;> rfl
  | cons first more ih =>
    have hfirst : first ≠ 0 := fun heq => h (heq ▸ List.mem_cons_self)
    have hmore := ih fun hm => h (List.mem_cons_of_mem _ hm)
    rw [upToZero] at hmore ⊢
    rw [List.cons_append, List.takeWhile_cons_of_pos (by simpa using hfirst), hmore]

theorem zero_notMem_octal (width n : Nat) : 0 ∉ octal width n := by
  intro h
  obtain ⟨k, hk, heq⟩ := exists_of_mem_octal h
  have hzero := congrArg UInt8.toNat heq
  rw [toNat_digit hk] at hzero
  change 0 = 48 + k at hzero
  omega

def digits (width n : Nat) : List Char := (octal width n).map fun b => Char.ofNat b.toNat

theorem exists_of_mem_digits {width n : Nat} {c : Char} (h : c ∈ digits width n) :
    ∃ k < 8, c = Char.ofNat (48 + k) := by
  obtain ⟨b, hb, rfl⟩ := List.mem_map.mp h
  obtain ⟨k, hk, rfl⟩ := exists_of_mem_octal hb
  exact ⟨k, hk, by rw [toNat_digit hk]⟩

theorem ofOctal_concat (s : List Char) (c : Char) :
    ofOctal (s ++ [c]) = ofOctal s * 8 + (c.toNat - 48) := by
  rw [ofOctal, List.foldl_append]
  rfl

theorem digit_value : ∀ k < 8, (Char.ofNat (48 + k)).toNat - 48 = k := by decide

theorem ofOctal_digits (width n : Nat) : ofOctal (digits width n) = n % 8 ^ width := by
  induction width generalizing n with
  | zero => rw [Nat.pow_zero, Nat.mod_one]; rfl
  | succ width ih =>
    have hlast : n % 8 < 8 := Nat.mod_lt n (by decide)
    have hdigits : digits (width + 1) n = digits width (n / 8) ++ [Char.ofNat (48 + n % 8)] := by
      rw [digits, octal, List.map_append, List.map_singleton, toNat_digit hlast]
      rfl
    rw [hdigits, ofOctal_concat, ih, digit_value _ hlast, Nat.pow_succ', Nat.mod_mul]
    omega

theorem octalValue?_digits {width : Nat} (h : width ≠ 0) (hw : width ≤ 21) (n : Nat) :
    octalValue? (digits width n) = some (n % 8 ^ width) := by
  have hdigit : ∀ k < 8, isOctalDigit (Char.ofNat (48 + k)) = true ∧ Char.ofNat (48 + k) ≠ '+' := by
    decide
  have hne : digits width n ≠ [] := by
    rw [digits, ne_eq, List.map_eq_nil_iff, ← List.length_eq_zero_iff, length_octal]
    exact h
  have hall : (digits width n).all isOctalDigit = true := by
    rw [List.all_eq_true]
    intro c hc
    obtain ⟨k, hk, rfl⟩ := exists_of_mem_digits hc
    exact (hdigit k hk).1
  have hbound : n % 8 ^ width < Nat.pow 2 64 := by
    have hpow : 8 ^ width ≤ 8 ^ 21 := Nat.pow_le_pow_right (by decide) hw
    have hlt : n % 8 ^ width < 8 ^ width := Nat.mod_lt n (Nat.pow_pos (by decide))
    have htop : (8 : Nat) ^ 21 ≤ Nat.pow 2 64 := by decide
    omega
  unfold octalValue?
  dsimp only
  split
  · next rest hplus =>
    have hmem : '+' ∈ digits width n := hplus ▸ List.mem_cons_self
    obtain ⟨k, hk, heq⟩ := exists_of_mem_digits hmem
    exact absurd heq.symm (hdigit k hk).2
  · rw [if_pos ⟨hne, hall, by rw [ofOctal_digits]; exact hbound⟩, ofOctal_digits]

theorem readOctal?_octalField (width n : Nat) (h : width ≠ 0) (hw : width ≤ 21) :
    readOctal? (octalField (width + 1) n) = some (n % 8 ^ width) := by
  have hfield : upToZero (octalField (width + 1) n) = octal width n :=
    upToZero_append_zeros (zero_notMem_octal width n) 1
  have hascii : ∀ b ∈ octal width n, b.toNat < 128 := by
    intro b hb
    obtain ⟨k, hk, rfl⟩ := exists_of_mem_octal hb
    rw [toNat_digit hk]
    omega
  have hblank : ∀ k < 8, Text.isBlank (Char.ofNat (48 + k)) = false := by decide
  have htrim : Text.trim (String.ofList (digits width n)) = String.ofList (digits width n) := by
    apply Text.trim_of_noBlank
    rw [String.toList_ofList]
    intro c hc
    obtain ⟨k, hk, rfl⟩ := exists_of_mem_digits hc
    exact hblank k hk
  have htext := Text.decode?_of_ascii hascii
  rw [readOctal?, hfield, htext, Option.bind_eq_bind, Option.bind_some]
  change octalValue? (Text.trim (String.ofList (digits width n))).toList = _
  rw [htrim, String.toList_ofList, octalValue?_digits h hw]

theorem bigEndian_add (first last n : Nat) :
    bigEndian (first + last) n = bigEndian first (n / 256 ^ last) ++ bigEndian last n := by
  induction last generalizing n with
  | zero => rw [Nat.add_zero, Nat.pow_zero, Nat.div_one, bigEndian, List.append_nil]
  | succ last ih =>
    have hdiv : n / 256 / 256 ^ last = n / 256 ^ (last + 1) := by
      rw [Nat.div_div_eq_div_mul, Nat.pow_succ']
    change bigEndian (first + last) (n / 256) ++ _ = _
    rw [ih, hdiv, List.append_assoc]
    rfl

theorem ofBytes_bigEndian (width n : Nat) : ofBytes (bigEndian width n) = n % 256 ^ width := by
  induction width generalizing n with
  | zero => rw [Nat.pow_zero, Nat.mod_one]; rfl
  | succ width ih =>
    have hlast : (n % 256).toUInt8.toNat = n % 256 :=
      UInt8.toNat_ofNat_of_lt' (Nat.mod_lt n (by decide))
    have hstep : ofBytes (bigEndian (width + 1) n) =
        ofBytes (bigEndian width (n / 256)) * 256 + (n % 256).toUInt8.toNat := by
      rw [bigEndian, ofBytes, List.foldl_append]
      rfl
    rw [hstep, ih, hlast, Nat.pow_succ', Nat.mod_mul]
    omega

theorem drop_mark (count : Nat) (b : Bytes) : (mark b).drop (count + 1) = b.drop (count + 1) := by
  cases b with
  | nil => rfl
  | cons first rest => rfl

theorem marked (b : UInt8) : (b ||| 0x80) &&& 0x80 ≠ 0 := by
  intro h
  have hbit := congrArg (fun c : UInt8 => c.toBitVec.getLsbD 7) h
  simp at hbit

theorem readNumber?_bigEndian {n : Nat} (h : n < Nat.pow 2 64) :
    readNumber? (mark (bigEndian 12 n)) = some n := by
  have hlength : (mark (bigEndian 12 n)).length = 12 := by rw [length_mark, length_bigEndian]
  have hdrop : (mark (bigEndian 12 n)).drop 4 = bigEndian 8 n := by
    have hsplit := bigEndian_add 4 8 n
    rw [drop_mark, hsplit, List.drop_left' (length_bigEndian _ _)]
  cases hbytes : bigEndian 12 n with
  | nil =>
    have hnone := length_bigEndian 12 n
    rw [hbytes] at hnone
    cases hnone
  | cons b rest =>
    rw [hbytes] at hlength hdrop
    change ((b ||| 0x80) :: rest).length = 12 at hlength
    change ((b ||| 0x80) :: rest).drop 4 = bigEndian 8 n at hdrop
    change readNumber? ((b ||| 0x80) :: rest) = some n
    have hmod : n % 256 ^ 8 = n := Nat.mod_eq_of_lt h
    rw [readNumber?, if_neg (marked b), hlength, if_neg (by decide), hdrop, ofBytes_bigEndian, hmod]

theorem readNumber?_octalField {n : Nat} (h : n < Nat.pow 2 33) :
    readNumber? (octalField 12 n) = some n := by
  have hread := readOctal?_octalField 11 n (by decide) (by decide)
  have hunmarked : ∀ k < 8, (48 + k).toUInt8 &&& 0x80 = 0 := by decide
  cases hbytes : octal 11 n with
  | nil =>
    have hnone := length_octal 11 n
    rw [hbytes] at hnone
    cases hnone
  | cons b rest =>
    obtain ⟨k, hk, hb⟩ := exists_of_mem_octal (hbytes ▸ List.mem_cons_self : b ∈ octal 11 n)
    have hfield : octalField 12 n = b :: (rest ++ [0]) := by
      change octal 11 n ++ [0] = _
      rw [hbytes, List.cons_append]
    have hmod : n % 8 ^ 11 = n := Nat.mod_eq_of_lt h
    rw [hmod, hfield] at hread
    rw [hfield, readNumber?, if_pos (hb ▸ hunmarked k hk), hread]

/-- A size field takes every number of 64 bits. -/
theorem readNumber?_numberField {n : Nat} (h : n < Nat.pow 2 64) :
    readNumber? (numberField 12 n) = some n := by
  unfold numberField
  split
  · exact readNumber?_bigEndian h
  · next hsmall =>
    have hn : n < Nat.pow 2 33 := by
      rw [not_or, Nat.not_le] at hsmall
      exact hsmall.1
    exact readNumber?_octalField hn

end ResourceModels.Archive

/-!
## Headers

What stands in each field of a written header is what the reader finds there, and the checksum is
sound. The name may fill its field but not overflow it.
-/

namespace ResourceModels.Archive

theorem length_zeros (count : Nat) : (zeros count).length = count := List.length_replicate ..

theorem length_fit {width : Nat} {b : Bytes} (h : b.length ≤ width) : (fit width b).length = width := by
  rw [fit, List.length_append, length_zeros]
  omega

theorem length_ownerField (n : Option Nat) : (ownerField n).length = 8 := by
  cases n with
  | none => exact length_zeros 8
  | some n => exact length_numberField 8 n (by decide)

theorem foldl_sum (b : Bytes) (start : Nat) :
    b.foldl (fun n d => n + d.toNat) start = start + sum b := by
  induction b generalizing start with
  | nil => rfl
  | cons d rest ih =>
    rw [sum, List.foldl_cons, List.foldl_cons, ih, ih (0 + d.toNat)]
    omega

theorem sum_le (b : Bytes) : sum b ≤ 255 * b.length := by
  induction b with
  | nil => exact Nat.le_refl 0
  | cons d rest ih =>
    have hd : d.toNat < 256 := d.toNat_lt
    have hsum : sum (d :: rest) = 0 + d.toNat + sum rest := foldl_sum rest (0 + d.toNat)
    rw [hsum, List.length_cons]
    omega

theorem slice_append {before field : Bytes} {start count : Nat} (hbefore : before.length = start)
    (hfield : field.length = count) (after : Bytes) :
    slice start count (before ++ (field ++ after)) = field := by
  rw [slice, List.drop_left' hbefore, List.take_left' hfield]

def headerStart (name : Bytes) (mode size : Nat) (owner : Owner) : Bytes :=
  fit 100 name ++ octalField 8 mode ++ ownerField owner.uid ++ ownerField owner.gid ++
    numberField 12 size ++ numberField 12 0

def headerEnd (flag : UInt8) : Bytes := flag :: zeros 100 ++ magic ++ zeros 247

def checksum (flag : UInt8) (name : Bytes) (mode size : Nat) (owner : Owner) : Nat :=
  sum (headerStart name mode size owner) + 8 * 32 + sum (headerEnd flag)

theorem header_eq (flag : UInt8) (name : Bytes) (mode size : Nat) (owner : Owner) :
    header flag name mode size owner = headerStart name mode size owner ++
      (octalField 8 (checksum flag name mode size owner) ++ headerEnd flag) :=
  List.append_assoc ..

theorem length_headerEnd (flag : UInt8) : (headerEnd flag).length = 356 := by
  rw [headerEnd, List.length_append, List.length_append, List.length_cons, length_zeros,
    length_zeros]
  decide

section

variable (flag : UInt8) {name : Bytes} (mode size : Nat) (owner : Owner)
  (hname : name.length ≤ 100)

include hname

theorem length_headerStart : (headerStart name mode size owner).length = 148 := by
  simp only [headerStart, List.length_append, length_fit hname, length_ownerField,
    length_octalField 8 _ (by decide), length_numberField 12 _ (by decide)]

theorem length_header : (header flag name mode size owner).length = blockSize := by
  rw [header_eq, List.length_append, List.length_append, length_headerStart mode size owner hname,
    length_octalField 8 _ (by decide), length_headerEnd]
  rfl

theorem checksum_lt : checksum flag name mode size owner < 8 ^ 7 := by
  have hstart := sum_le (headerStart name mode size owner)
  have hend := sum_le (headerEnd flag)
  rw [length_headerStart mode size owner hname] at hstart
  rw [length_headerEnd] at hend
  unfold checksum
  omega

theorem isSound_header : Header.isSound (header flag name mode size owner) = true := by
  have hstart := length_headerStart mode size owner hname
  have hfield := length_octalField 8 (checksum flag name mode size owner) (by decide)
  have hslice : slice 148 8 (header flag name mode size owner) =
      octalField 8 (checksum flag name mode size owner) := by
    rw [header_eq, slice_append hstart hfield]
  have hbefore : (header flag name mode size owner).take 148 = headerStart name mode size owner := by
    rw [header_eq, List.take_left' hstart]
  have hafter : (header flag name mode size owner).drop 156 = headerEnd flag := by
    rw [header_eq, ← List.append_assoc, List.drop_left' (by rw [List.length_append, hstart, hfield])]
  have hlt := checksum_lt flag mode size owner hname
  have hread := readOctal?_octalField 7 (checksum flag name mode size owner) (by decide)
    (by decide)
  rw [Nat.mod_eq_of_lt hlt] at hread
  rw [Header.isSound, hslice, hread, hbefore, hafter, Option.any_some, decide_eq_true_eq,
    Nat.mod_eq_of_lt (Nat.lt_trans hlt (by decide))]
  unfold checksum
  omega

theorem size?_header (hsize : size < Nat.pow 2 64) :
    Header.size? (header flag name mode size owner) = some size := by
  have hslice : slice 124 12 (header flag name mode size owner) = numberField 12 size := by
    rw [header_eq, headerStart, List.append_assoc, List.append_assoc]
    refine slice_append ?_ (length_numberField 12 size (by decide)) _
    simp only [List.length_append, length_fit hname, length_ownerField,
      length_octalField 8 _ (by decide)]
  rw [Header.size?, hslice, readNumber?_numberField hsize]

theorem mode_header (hmode : mode < 8 ^ 7) :
    Header.mode (header flag name mode size owner) = mode := by
  have hslice : slice 100 8 (header flag name mode size owner) = octalField 8 mode := by
    rw [header_eq, headerStart, List.append_assoc, List.append_assoc, List.append_assoc,
      List.append_assoc, List.append_assoc]
    exact slice_append (length_fit hname) (length_octalField 8 mode (by decide)) _
  have hread := readOctal?_octalField 7 mode (by decide) (by decide)
  rw [Header.mode, hslice, hread, Option.getD_some, Nat.mod_eq_of_lt hmode,
    Nat.mod_eq_of_lt (Nat.lt_trans hmode (by decide))]

theorem flag_header : Header.flag (header flag name mode size owner) = flag := by
  have hlength : (headerStart name mode size owner ++
      octalField 8 (checksum flag name mode size owner)).length = 156 := by
    rw [List.length_append, length_headerStart mode size owner hname, length_octalField 8 _ (by decide)]
  rw [Header.flag, header_eq, ← List.append_assoc, List.drop_left' hlength]
  rfl

theorem magic_header : slice 257 8 (header flag name mode size owner) = magic := by
  have hsplit : header flag name mode size owner =
      (headerStart name mode size owner ++ octalField 8 (checksum flag name mode size owner) ++
        flag :: zeros 100) ++ (magic ++ zeros 247) := by
    rw [header_eq, headerEnd]
    simp only [List.append_assoc, List.cons_append]
  rw [hsplit]
  refine slice_append ?_ (by decide) _
  rw [List.length_append, List.length_append, length_headerStart mode size owner hname,
    length_octalField 8 _ (by decide), List.length_cons, length_zeros]

theorem isGnu_header : Header.isGnu (header flag name mode size owner) = true := by
  rw [Header.isGnu, magic_header flag mode size owner hname]
  decide

theorem isUstar_header : Header.isUstar (header flag name mode size owner) = false := by
  rw [Header.isUstar, magic_header flag mode size owner hname]
  decide

theorem name_header (hzero : 0 ∉ name) : Header.name (header flag name mode size owner) = name := by
  have hslice : slice 0 100 (header flag name mode size owner) = fit 100 name := by
    rw [header_eq, headerStart]
    simp only [List.append_assoc]
    exact slice_append List.length_nil (length_fit hname) _
  rw [Header.name, isUstar_header flag mode size owner hname, hslice, fit, upToZero_append_zeros hzero]
  rfl

/-- A header is no empty block. -/
theorem not_all_zero_header : (header flag name mode size owner).all (· = 0) = false := by
  have hmem : (117 : UInt8) ∈ header flag name mode size owner := by
    have hmagic : (117 : UInt8) ∈ magic := by decide
    rw [← magic_header flag mode size owner hname] at hmagic
    exact List.mem_of_mem_drop (List.mem_of_mem_take hmagic)
  rw [List.all_eq_false]
  exact ⟨117, hmem, by decide⟩

end

end ResourceModels.Archive
