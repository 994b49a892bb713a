import ResourceModels.Archive.Writing
import ResourceModels.Text.Lossy

/-!
Archives as they are read. Members come one after the other up to an empty block or the end; the
reader goes wrong where a header is damaged or the bytes end too early, and keeps the members before
that place. A name may stand in a member before the one it names.
-/

namespace ResourceModels.Archive

def slice (start count : Nat) (block : Bytes) : Bytes := (block.drop start).take count

namespace Header

def flag (block : Bytes) : UInt8 := (block.drop 156).headD 0

/-- Whether the checksum is that of the header. -/
def isSound (block : Bytes) : Bool :=
  (readOctal? (slice 148 8 block)).any fun n =>
    n % Nat.pow 2 32 = sum (block.take 148) + sum (block.drop 156) + 8 * 32

def size? (block : Bytes) : Option Nat := readNumber? (slice 124 12 block)

def mode (block : Bytes) : Nat := ((readOctal? (slice 100 8 block)).getD 0o644) % Nat.pow 2 32

/-- The two formats that have members before others. -/
def isGnu (block : Bytes) : Bool := slice 257 8 block = magic

def isUstar (block : Bytes) : Bool := slice 257 8 block = "ustar".toUTF8.data.toList ++ [0, 48, 48]

/-- The name in the header, which may come in two parts. -/
def name (block : Bytes) : Bytes :=
  let last := upToZero (slice 0 100 block)
  let first := upToZero (slice 345 155 block)
  if isUstar block && !first.isEmpty then first ++ 47 :: last else last

def isFile (block : Bytes) : Bool := flag block = 48 || flag block = 0 || flag block = 55

end Header

/-- One entry of an extended header, a line `length key=value`. -/
structure Attribute where
  key : Bytes
  value : Bytes

/-- The number of decimal digits, which may have a plus in front; it has to fit into 64 bits. -/
def decimal? (b : Bytes) : Option Nat :=
  let digits := if b.head? = some 43 then b.drop 1 else b
  let n := digits.foldl (fun n d => n * 10 + (d.toNat - 48)) 0
  if digits ≠ [] ∧ digits.all (fun d => 48 ≤ d && d ≤ 57) ∧ n < Nat.pow 2 64 then some n else none

def attribute? (line : Bytes) : Option Attribute :=
  match line.span (· ≠ 32) with
  | (count, _ :: rest) =>
    if decimal? count ≠ some (line.length + 1) then none
    else match rest.span (· ≠ 61) with
      | (key, _ :: value) => some ⟨key, value⟩
      | _ => none
  | _ => none

/-- The lines of an extended header, each with its attribute if it is well formed. -/
def attributes (contents : Bytes) : List (Option Attribute) :=
  ((contents.splitOn 10).takeWhile (· ≠ [])).map attribute?

def attributeText (s : String) : Bytes := s.toUTF8.data.toList

/-- The name that an extended header gives; lines that are not well formed are passed over. -/
def attributePath? (contents : Bytes) : Option Bytes :=
  ((attributes contents).findSome? fun a => a.filter (·.key = attributeText "path")).map (·.value)

/-- The size that an extended header gives, unless a line before it is not well formed. -/
def attributeSize? : List (Option Attribute) → Option Nat
  | [] => none
  | none :: _ => none
  | some a :: rest => if a.key = attributeText "size" then decimal? a.value else attributeSize? rest

/-- A header with the bytes after it, and how many of them belong to it. -/
structure Raw where
  block : Bytes
  size : Nat
  data : Bytes

inductive Next (α : Type)
  | done
  | damaged
  | found (a : α)

/-- The next header. `extended` is the extended header that belongs to it, whose size counts. -/
def readHeader (extended : Option Bytes) (bytes : Bytes) : Next Raw :=
  if bytes = [] then .done
  else if bytes.length < blockSize then .damaged
  else
    let block := bytes.take blockSize
    if block.all (· = 0) then .done
    else if !Header.isSound block then .damaged
    else match Header.size? block with
      | none => .damaged
      | some size =>
        let size := (extended.bind fun e => attributeSize? (attributes e)).getD size
        if Nat.pow 2 64 ≤ size + 2 * blockSize then .damaged
        else .found ⟨block, size, bytes.drop blockSize⟩

/-- The bytes after the contents of a member and what completes their last block. -/
def afterContents? (r : Raw) : Option Bytes :=
  let whole := r.size + padding r.size
  if r.data.length < whole then none else some (r.data.drop whole)

/-- What stands before a member and belongs to it. -/
structure Lead where
  name : Option Bytes := none
  linkSeen : Bool := false
  extended : Option Bytes := none

def Lead.isEmpty (l : Lead) : Bool := l.name.isNone && !l.linkSeen && l.extended.isNone

/-- Takes up a member that belongs to the one after it; each kind may come once. No result if the
member is one of its own. -/
def Lead.take? (l : Lead) (r : Raw) : Option (Option Lead) :=
  let contents := r.data.take r.size
  if !(Header.isGnu r.block || Header.isUstar r.block) then none
  else match Header.flag r.block with
    | 76 => some (if l.name.isSome then none else some { l with name := some contents })
    | 75 => some (if l.linkSeen then none else some { l with linkSeen := true })
    | 120 => some (if l.extended.isSome then none else some { l with extended := some contents })
    | _ => none

def memberName (l : Lead) (block : Bytes) : Bytes :=
  match l.name with
  | some name => if name.getLast? = some 0 then name.dropLast else name
  | none => (l.extended.bind attributePath?).getD (Header.name block)

/-- One part of a sparse file: where it begins and how long it is. -/
def sparsePart? (part : Bytes) : Option (Option (Nat × Nat)) :=
  if part.head? = some 0 ∨ (part.drop 12).head? = some 0 then some none
  else do return some (← readNumber? (part.take 12), ← readNumber? ((part.drop 12).take 12))

/-- How far a sparse file has been read, and how many stored bytes are left. -/
structure Sparse where
  current : Nat
  left : Nat

/-- Takes up the parts of a sparse file, which follow each other. -/
def Sparse.takeParts (size : Nat) (s : Sparse) : List Bytes → Option Sparse
  | [] => some s
  | part :: rest =>
    match sparsePart? part with
    | none => none
    | some none => takeParts size s rest
    | some (some (start, length)) =>
      if length ≠ 0 ∧ (size - s.left) % blockSize ≠ 0 then none
      else if start < s.current ∨ Nat.pow 2 64 ≤ start + length ∨ s.left < length then none
      else takeParts size ⟨start + length, s.left - length⟩ rest

def chunks (width : Nat) : Nat → Bytes → List Bytes
  | 0, _ => []
  | count + 1, b => b.take width :: chunks width count (b.drop width)

/-- Takes up the blocks that go on with the parts of a sparse file. -/
def Sparse.takeBlocks (size : Nat) : Nat → Sparse → Bytes → Option (Sparse × Bytes)
  | 0, _, _ => none
  | fuel + 1, s, data =>
    if data.length < blockSize then none
    else do
      let s ← s.takeParts size (chunks 24 21 data)
      if (data.drop 504).head? = some 1 then takeBlocks size fuel s (data.drop blockSize)
      else some (s, data.drop blockSize)

/-- The header of a sparse file, if its parts fit together, without the blocks that go on with
them. -/
def sparse? (r : Raw) : Option Raw := do
  let s ← Sparse.takeParts r.size ⟨0, r.size⟩ (chunks 24 4 (r.block.drop 386))
  let (s, data) ←
    if (r.block.drop 482).head? = some 1 then Sparse.takeBlocks r.size (r.data.length + 1) s r.data
    else some (s, r.data)
  let whole ← readNumber? (slice 483 12 r.block)
  if s.current = whole ∧ s.left = 0 then some { r with data } else none

structure Found where
  name : Bytes
  raw : Raw

def settle (l : Lead) (r : Raw) : Next Found :=
  if Header.flag r.block = 83 then
    if Header.isGnu r.block then
      match sparse? r with
      | some r => .found ⟨memberName l r.block, r⟩
      | none => .damaged
    else .damaged
  else .found ⟨memberName l r.block, r⟩

/-- The next member with a name of its own. The fuel is the number of bytes. -/
def readMember : Nat → Lead → Bytes → Next Found
  | 0, _, _ => .damaged
  | fuel + 1, l, bytes =>
    match readHeader l.extended bytes with
    | .done => if l.isEmpty then .done else .damaged
    | .damaged => .damaged
    | .found r =>
      match l.take? r with
      | none => settle l r
      | some none => .damaged
      | some (some l) =>
        match afterContents? r with
        | some rest => readMember fuel l rest
        | none => .damaged

/-- The members of an archive, and whether it could be read to its end. -/
def members : Nat → Bytes → List Found × Bool
  | 0, _ => ([], false)
  | fuel + 1, bytes =>
    match readMember (bytes.length + 1) {} bytes with
    | .done => ([], true)
    | .damaged => ([], false)
    | .found f =>
      match afterContents? f.raw with
      | none => ([f], false)
      | some rest =>
        let (l, complete) := members fuel rest
        (f :: l, complete)

/-- The members of an archive, in order. -/
def read (bytes : Bytes) : List Found × Bool := members (bytes.length + 1) bytes

end ResourceModels.Archive
