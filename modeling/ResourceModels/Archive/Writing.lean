import ResourceModels.Archive.Field

/-!
Archives as they are written: blocks of 512 bytes, a header before the contents of each member, and
two empty blocks at the end. A name that does not fit into a header is written before it as a member
of its own.
-/

namespace ResourceModels.Archive

def blockSize : Nat := 512

/-- The user and group that own members, where they are given. -/
structure Owner where
  uid : Option Nat := none
  gid : Option Nat := none
deriving DecidableEq, Repr, Inhabited

inductive Kind
  | file
  | directory
deriving DecidableEq, Repr

structure Member where
  name : String
  kind : Kind
  mode : Nat
  contents : Bytes
deriving DecidableEq, Repr

/-- Bytes in a field that they do not overflow. -/
def fit (width : Nat) (b : Bytes) : Bytes := b ++ zeros (width - b.length)

/-- As many zero bytes as complete the last block of some contents. -/
def padding (size : Nat) : Nat := (blockSize - size % blockSize) % blockSize

def sum (b : Bytes) : Nat := b.foldl (fun n d => n + d.toNat) 0

/-- The first eight bytes after the link name tell the format. -/
def magic : Bytes := "ustar  ".toUTF8.data.toList ++ [0]

def ownerField (n : Option Nat) : Bytes :=
  match n with
  | some n => numberField 8 n
  | none => zeros 8

/-- A header. Its checksum is taken with blanks in the place of the checksum. -/
def header (flag : UInt8) (name : Bytes) (mode size : Nat) (owner : Owner) : Bytes :=
  let before := fit 100 name ++ octalField 8 mode ++ ownerField owner.uid ++ ownerField owner.gid ++
    numberField 12 size ++ numberField 12 0
  let after := flag :: zeros 100 ++ magic ++ zeros 247
  before ++ octalField 8 (sum before + 8 * 32 + sum after) ++ after

/-- A header and the contents it announces, up to the end of a block. -/
def record (flag : UInt8) (name : Bytes) (mode : Nat) (owner : Owner) (contents : Bytes) : Bytes :=
  header flag name mode contents.length owner ++ contents ++ zeros (padding contents.length)

def nameBytes (name : String) : Bytes := name.toUTF8.data.toList

/-- The segments of a name, without empty ones and dots. -/
def segments (name : Bytes) : List Bytes :=
  (name.splitOn 47).filter fun s => s ≠ [] && s ≠ [46]

def joinSegments : List Bytes → Bytes
  | [] => []
  | [s] => s
  | s :: rest => s ++ 47 :: joinSegments rest

/-- A name as a header holds it: relative, with single separators, and at most 100 bytes long. No
segment leads upwards, but the last one of a name that `isCut` may have been longer. -/
def headerName? (isCut : Bool) (name : Bytes) : Option Bytes :=
  let all := segments name
  let whole := if isCut then all.dropLast else all
  let written := joinSegments all ++ if name.getLast? = some 47 then [47] else []
  if name.head? = some 47 ∨ all = [] ∨ [46, 46] ∈ whole ∨ 0 ∈ written ∨ 100 < written.length then
    none
  else some written

/-- How many bytes can be taken off the end of a name to leave whole characters. -/
def wholeChars (name : Bytes) : Bytes :=
  let isText (b : Bytes) := (Text.decode? ⟨b.toArray⟩).isSome
  let cut := [0, 1, 2, 3].find? fun n => isText (name.take (name.length - n))
  name.take (name.length - cut.getD 0)

/-- The member that holds a name too long for a header. -/
def longName (name : Bytes) : Bytes :=
  record 76 (nameBytes "././@LongLink") 0o644 ⟨some 0, some 0⟩ (name ++ [0])

def flag : Kind → UInt8
  | .file => 48
  | .directory => 53

/-- The name of a member in its header, and what stands before the header. -/
def nameRecord? (name : Bytes) : Option (Bytes × Bytes) :=
  match headerName? false name with
  | some short => some ([], short)
  | none =>
    if name.length < 100 then none
    else (headerName? true (wholeChars (name.take 100))).map fun short => (longName name, short)

/-- A member as it is written, unless its name cannot be. -/
def memberBytes? (owner : Owner) (m : Member) : Option Bytes :=
  (nameRecord? (nameBytes m.name)).map fun (before, name) =>
    before ++ record (flag m.kind) name m.mode owner m.contents

/-- The two empty blocks after the last member. -/
def ending : Bytes := zeros (2 * blockSize)

end ResourceModels.Archive
