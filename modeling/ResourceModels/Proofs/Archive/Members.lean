import ResourceModels.Archive
import ResourceModels.Proofs.Archive.Header
import ResourceModels.Proofs.Archive.Name

/-!
# Members written and read

Each member takes whole blocks: a header, its contents and what completes their last block, with a
member for a long name before it. The reader finds the member there and goes on right behind it, so
that it reads a whole archive back, member by member, up to the two empty blocks.
-/

namespace ResourceModels.Archive

/-- The reader counts two blocks on from a size in 64 bits. No byte sequence of a 64-bit machine is
longer than this allows. -/
def IsCounted (size : Nat) : Prop := size + 2 * blockSize < Nat.pow 2 64

instance (size : Nat) : Decidable (IsCounted size) :=
  inferInstanceAs (Decidable (size + 2 * blockSize < Nat.pow 2 64))

def Raw.ofRecord (flag : UInt8) (name : Bytes) (mode : Nat) (owner : Owner)
    (contents more : Bytes) : Raw :=
  ⟨header flag name mode contents.length owner, contents.length,
    contents ++ zeros (padding contents.length) ++ more⟩

theorem record_append (flag : UInt8) (name : Bytes) (mode : Nat) (owner : Owner)
    (contents more : Bytes) : record flag name mode owner contents ++ more =
      header flag name mode contents.length owner ++
        (contents ++ zeros (padding contents.length) ++ more) := by
  simp only [record, List.append_assoc]

theorem length_record {flag : UInt8} {name : Bytes} (hname : name.length ≤ 100) (mode : Nat)
    (owner : Owner) (contents : Bytes) :
    blockSize ≤ (record flag name mode owner contents).length := by
  rw [record, List.append_assoc, List.length_append, length_header _ _ _ _ hname]
  exact Nat.le_add_right _ _

section

variable (flag : UInt8) {name : Bytes} (mode : Nat) (owner : Owner) (contents more : Bytes)
  (hname : name.length ≤ 100)

theorem afterContents?_ofRecord :
    afterContents? (Raw.ofRecord flag name mode owner contents more) = some more := by
  have hwhole : (contents ++ zeros (padding contents.length)).length =
      contents.length + padding contents.length := by
    rw [List.length_append, length_zeros]
  unfold afterContents? Raw.ofRecord
  dsimp only
  rw [if_neg, List.drop_left' hwhole]
  rw [List.length_append, hwhole]
  omega

include hname

theorem readHeader_record (hsize : IsCounted contents.length) :
    readHeader none (record flag name mode owner contents ++ more) =
      .found (Raw.ofRecord flag name mode owner contents more) := by
  have hheader := length_header flag mode contents.length owner hname
  have hsmall : contents.length < Nat.pow 2 64 := Nat.lt_of_le_of_lt (Nat.le_add_right _ _) hsize
  have hlength : blockSize ≤ (record flag name mode owner contents ++ more).length := by
    rw [List.length_append]
    exact Nat.le_trans (length_record hname mode owner contents) (Nat.le_add_right _ _)
  have hne : record flag name mode owner contents ++ more ≠ [] := by
    intro hnil
    rw [hnil] at hlength
    exact absurd hlength (by decide)
  have htake : (record flag name mode owner contents ++ more).take blockSize =
      header flag name mode contents.length owner := by
    rw [record_append, List.take_left' hheader]
  have hdrop : (record flag name mode owner contents ++ more).drop blockSize =
      contents ++ zeros (padding contents.length) ++ more := by
    rw [record_append, List.drop_left' hheader]
  have hsound := isSound_header flag mode contents.length owner hname
  have hzero := not_all_zero_header flag mode contents.length owner hname
  have hread := size?_header flag mode contents.length owner hname hsmall
  rw [readHeader, if_neg hne, if_neg (Nat.not_lt.mpr hlength)]
  simp only [htake, hzero, hsound, hread, hdrop, Bool.not_true, Bool.false_eq_true, if_false,
    Option.bind_none, Option.getD_none]
  rw [if_neg (Nat.not_le.mpr hsize)]
  rfl

/-- A member of a flag that no lead has is one of its own. -/
theorem take?_none (l : Lead) (hlong : flag ≠ 76) (hlink : flag ≠ 75) (hextended : flag ≠ 120) :
    l.take? (Raw.ofRecord flag name mode owner contents more) = none := by
  have hgnu := isGnu_header flag mode contents.length owner hname
  have hflag := flag_header flag mode contents.length owner hname
  unfold Lead.take? Raw.ofRecord
  simp only [hgnu, hflag, Bool.true_or, Bool.not_true, Bool.false_eq_true, if_false]

theorem take?_longName :
    Lead.take? {} (Raw.ofRecord 76 name mode owner contents more) =
      some (some { name := some contents }) := by
  have hgnu := isGnu_header 76 mode contents.length owner hname
  have hflag := flag_header 76 mode contents.length owner hname
  unfold Lead.take? Raw.ofRecord
  simp only [hgnu, hflag, Bool.true_or, Bool.not_true, Bool.false_eq_true, if_false,
    List.append_assoc, List.take_left, Option.isSome_none]

theorem settle_ofRecord (l : Lead) (hsparse : flag ≠ 83) :
    settle l (Raw.ofRecord flag name mode owner contents more) =
      .found ⟨memberName l (header flag name mode contents.length owner),
        Raw.ofRecord flag name mode owner contents more⟩ := by
  have hflag : Header.flag (Raw.ofRecord flag name mode owner contents more).block = flag :=
    flag_header _ _ _ _ hname
  rw [settle, hflag, if_neg hsparse]
  rfl

end

theorem flag_isOwn (kind : Kind) :
    flag kind ≠ 76 ∧ flag kind ≠ 75 ∧ flag kind ≠ 120 ∧ flag kind ≠ 83 := by
  cases kind <;> decide

theorem readMember_record {name : Bytes} (hname : name.length ≤ 100) {contents : Bytes}
    (hsize : IsCounted contents.length) (l : Lead) (hl : l.extended = none) (kind : Kind)
    (mode : Nat) (owner : Owner) (more : Bytes) (fuel : Nat) :
    readMember (fuel + 1) l (record (flag kind) name mode owner contents ++ more) =
      .found ⟨memberName l (header (flag kind) name mode contents.length owner),
        Raw.ofRecord (flag kind) name mode owner contents more⟩ := by
  obtain ⟨hlong, hlink, hextended, hsparse⟩ := flag_isOwn kind
  have hheader := readHeader_record (flag kind) mode owner contents more hname hsize
  have htake := take?_none (flag kind) mode owner contents more hname l hlong hlink hextended
  rw [readMember, hl, hheader]
  dsimp only
  rw [htake]
  dsimp only
  rw [settle_ofRecord _ _ _ _ _ hname l hsparse]

theorem readMember_longName {name : Bytes} (hsize : IsCounted (name.length + 1)) (more : Bytes)
    (fuel : Nat) : readMember (fuel + 1) {} (longName name ++ more) =
      readMember fuel { name := some (name ++ [0]) } more := by
  have hlink : (nameBytes "././@LongLink").length ≤ 100 := by decide
  have hlength : IsCounted (name ++ [0]).length := by rwa [List.length_append]
  have hheader := readHeader_record 76 0o644 ⟨some 0, some 0⟩ (name ++ [0]) more hlink hlength
  have htake := take?_longName 0o644 ⟨some 0, some 0⟩ (name ++ [0]) more hlink
  rw [readMember, longName, hheader]
  dsimp only
  rw [htake]
  dsimp only
  rw [afterContents?_ofRecord]

theorem memberName_longName (name block : Bytes) :
    memberName { name := some (name ++ [0]) } block = name := by
  unfold memberName
  dsimp only
  rw [if_pos List.getLast?_concat, List.dropLast_concat]

/-- What the format asks of a member. -/
structure Writable (m : Member) : Prop where
  relative : IsRelative (nameBytes m.name)
  clean : 0 ∉ nameBytes m.name
  nameSize : IsCounted ((nameBytes m.name).length + 1)
  mode : m.mode < 8 ^ 7
  size : IsCounted m.contents.length

/-- The reader has found a member: its name, kind and mode, and its contents at the front of the
bytes that follow. -/
structure Reads (m : Member) (f : Found) : Prop where
  name : f.name = nameBytes m.name
  isFile : Header.isFile f.raw.block = decide (m.kind = .file)
  mode : Header.mode f.raw.block = m.mode
  size : f.raw.size = m.contents.length
  contents : m.contents <+: f.raw.data

theorem isFile_header {name : Bytes} (hname : name.length ≤ 100) (kind : Kind) (mode size : Nat)
    (owner : Owner) :
    Header.isFile (header (flag kind) name mode size owner) = decide (kind = .file) := by
  rw [Header.isFile, flag_header _ _ _ _ hname]
  cases kind <;> decide

theorem reads_ofRecord {m : Member} (h : Writable m) {short : Bytes} (hshort : short.length ≤ 100)
    (owner : Owner) (more : Bytes) :
    Reads m ⟨nameBytes m.name, Raw.ofRecord (flag m.kind) short m.mode owner m.contents more⟩ where
  name := rfl
  isFile := isFile_header hshort m.kind m.mode m.contents.length owner
  mode := mode_header _ _ _ _ hshort h.mode
  size := rfl
  contents := by
    change m.contents <+: m.contents ++ _ ++ more
    rw [List.append_assoc]
    exact List.prefix_append _ _

/-- A member can be written, and the reader finds it and goes on behind it. -/
theorem exists_memberBytes {m : Member} (h : Writable m) (owner : Owner) :
    ∃ bytes, memberBytes? owner m = some bytes ∧ blockSize ≤ bytes.length ∧
      ∀ fuel more, ∃ f, readMember (fuel + 2) {} (bytes ++ more) = .found f ∧ Reads m f ∧
        afterContents? f.raw = some more := by
  by_cases hlength : (nameBytes m.name).length ≤ 100
  · have hrecord := nameRecord?_short h.relative h.clean hlength
    have hname := name_header (flag m.kind) m.mode m.contents.length owner hlength h.clean
    refine ⟨record (flag m.kind) (nameBytes m.name) m.mode owner m.contents, ?_,
      length_record hlength _ _ _, fun fuel more => ?_⟩
    · rw [memberBytes?, hrecord]
      rfl
    have hread := readMember_record hlength h.size {} rfl m.kind m.mode owner more (fuel + 1)
    have hfound : memberName {} (header (flag m.kind) (nameBytes m.name) m.mode m.contents.length
        owner) = nameBytes m.name := hname
    rw [hfound] at hread
    exact ⟨_, hread, reads_ofRecord h hlength owner more, afterContents?_ofRecord _ _ _ _ _⟩
  · obtain ⟨short, hrecord, hshort, _⟩ :=
      nameRecord?_long h.relative h.clean (Nat.lt_of_not_le hlength)
    refine ⟨longName (nameBytes m.name) ++ record (flag m.kind) short m.mode owner m.contents,
      ?_, ?_, fun fuel more => ?_⟩
    · rw [memberBytes?, hrecord]
      rfl
    · rw [List.length_append]
      exact Nat.le_trans (length_record hshort _ _ _) (Nat.le_add_left _ _)
    have hread := readMember_record hshort h.size { name := some (nameBytes m.name ++ [0]) } rfl
      m.kind m.mode owner more fuel
    rw [memberName_longName] at hread
    rw [List.append_assoc, readMember_longName h.nameSize]
    exact ⟨_, hread, reads_ofRecord h hshort owner more, afterContents?_ofRecord _ _ _ _ _⟩

theorem written_eq_ok {owner : Owner} {all : List Member} {bytes : Bytes} :
    written owner all = .ok bytes ↔
      ∃ pieces, all.mapM (memberBytes? owner) = some pieces ∧ pieces.flatten = bytes := by
  unfold written
  cases all.mapM (memberBytes? owner) with
  | none => simp
  | some pieces => simp

theorem written_cons {owner : Owner} {m : Member} {all : List Member} {bytes rest : Bytes}
    (hm : memberBytes? owner m = some bytes) (hall : written owner all = .ok rest) :
    written owner (m :: all) = .ok (bytes ++ rest) := by
  obtain ⟨pieces, hpieces, rfl⟩ := written_eq_ok.mp hall
  refine written_eq_ok.mpr ⟨bytes :: pieces, ?_, List.flatten_cons⟩
  rw [List.mapM_cons, hm, hpieces]
  rfl

theorem written_append {owner : Owner} {a b : List Member} {bytes : Bytes}
    (h : written owner (a ++ b) = .ok bytes) :
    ∃ first rest, written owner a = .ok first ∧ written owner b = .ok rest ∧
      bytes = first ++ rest := by
  obtain ⟨pieces, hpieces, rfl⟩ := written_eq_ok.mp h
  simp only [List.mapM_append, Option.bind_eq_bind, Option.bind_eq_some_iff, Option.pure_def,
    Option.some.injEq] at hpieces
  obtain ⟨first, hfirst, rest, hrest, rfl⟩ := hpieces
  exact ⟨_, _, written_eq_ok.mpr ⟨first, hfirst, rfl⟩, written_eq_ok.mpr ⟨rest, hrest, rfl⟩,
    List.flatten_append⟩

theorem readMember_ending (fuel : Nat) : readMember (fuel + 1) {} ending = .done := by
  have hlength : ending.length = 2 * blockSize := length_zeros _
  have hne : ending ≠ [] := fun hnil => by
    rw [hnil] at hlength
    cases hlength
  have hshort : ¬ending.length < blockSize := by
    rw [hlength]
    decide
  have hzero : (ending.take blockSize).all (· = 0) = true := by
    rw [List.all_eq_true]
    intro b hb
    exact decide_eq_true (List.eq_of_mem_replicate (List.mem_of_mem_take hb))
  have hheader : readHeader none ending = .done := by
    rw [readHeader, if_neg hne, if_neg hshort]
    dsimp only
    rw [if_pos hzero]
  rw [readMember, hheader]
  rfl

/-- Members can be written, and the reader finds each of them in order. -/
theorem exists_written {all : List Member} (h : ∀ m ∈ all, Writable m) (owner : Owner) :
    ∃ bytes, written owner all = .ok bytes ∧ all.length ≤ bytes.length ∧
      ∀ fuel, all.length < fuel →
        ∃ fs, members fuel (bytes ++ ending) = (fs, true) ∧ List.Forall₂ Reads all fs := by
  induction all with
  | nil =>
    refine ⟨[], rfl, Nat.le_refl 0, fun fuel hfuel => ⟨[], ?_, .nil⟩⟩
    obtain ⟨fuel, rfl⟩ := Nat.exists_eq_succ_of_ne_zero (Nat.ne_of_gt hfuel)
    rw [members, List.nil_append, readMember_ending]
  | cons m all ih =>
    obtain ⟨first, hfirst, hblock, hstep⟩ := exists_memberBytes (h m List.mem_cons_self) owner
    obtain ⟨rest, hrest, hlength, hread⟩ := ih fun m' hm' => h m' (List.mem_cons_of_mem _ hm')
    have hpositive : 0 < first.length := Nat.lt_of_lt_of_le (by decide) hblock
    refine ⟨first ++ rest, written_cons hfirst hrest, ?_, fun fuel hfuel => ?_⟩
    · rw [List.length_cons, List.length_append]
      omega
    obtain ⟨fuel, rfl⟩ := Nat.exists_eq_succ_of_ne_zero (Nat.ne_of_gt (Nat.zero_lt_of_lt hfuel))
    obtain ⟨fs, hfs, hreads⟩ := hread fuel (Nat.lt_of_succ_lt_succ hfuel)
    -- The fuel for one member is the number of bytes left, which is enough for a name before it.
    obtain ⟨count, hcount⟩ : ∃ count, (first ++ (rest ++ ending)).length + 1 = count + 2 := by
      refine ⟨(first ++ (rest ++ ending)).length - 1, ?_⟩
      rw [List.length_append]
      omega
    obtain ⟨f, hf, hreadsFirst, hafter⟩ := hstep count (rest ++ ending)
    refine ⟨f :: fs, ?_, .cons hreadsFirst hreads⟩
    rw [members, List.append_assoc, hcount, hf]
    dsimp only
    rw [hafter]
    dsimp only
    rw [hfs]

theorem read_written {all : List Member} (h : ∀ m ∈ all, Writable m) (owner : Owner) :
    ∃ bytes fs, written owner all = .ok bytes ∧ read (bytes ++ ending) = (fs, true) ∧
      List.Forall₂ Reads all fs := by
  obtain ⟨bytes, hbytes, hlength, hread⟩ := exists_written h owner
  have hfuel : all.length < (bytes ++ ending).length + 1 := by
    rw [List.length_append]
    omega
  obtain ⟨fs, hfs, hreads⟩ := hread _ hfuel
  exact ⟨bytes, fs, hbytes, hfs, hreads⟩

end ResourceModels.Archive
