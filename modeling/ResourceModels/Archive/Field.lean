import ResourceModels.Text.Blank

/-!
Number fields of archive headers. A number is written in octal digits with a zero byte at the end;
one too large for that is written in bytes, the first of them marked.
-/

namespace ResourceModels.Archive

abbrev Bytes := List UInt8

def zeros (count : Nat) : Bytes := List.replicate count 0

/-- The last `width` octal digits of a number. -/
def octal : Nat → Nat → Bytes
  | 0, _ => []
  | width + 1, n => octal width (n / 8) ++ [(48 + n % 8).toUInt8]

/-- A number in octal digits that fill all of a field but its last byte. -/
def octalField (width n : Nat) : Bytes := octal (width - 1) n ++ [0]

/-- The last `width` bytes of a number, the highest first. -/
def bigEndian : Nat → Nat → Bytes
  | 0, _ => []
  | width + 1, n => bigEndian width (n / 256) ++ [(n % 256).toUInt8]

/-- Sets the highest bit of the first byte. -/
def mark : Bytes → Bytes
  | [] => []
  | b :: rest => (b ||| 0x80) :: rest

def numberField (width n : Nat) : Bytes :=
  if Nat.pow 2 33 ≤ n ∨ (Nat.pow 2 21 ≤ n ∧ width = 8) then mark (bigEndian width n)
  else octalField width n

def upToZero (b : Bytes) : Bytes := b.takeWhile (· ≠ 0)

def isOctalDigit (c : Char) : Bool := '0' ≤ c && c ≤ '7'

def ofOctal (digits : List Char) : Nat := digits.foldl (fun n c => n * 8 + (c.toNat - 48)) 0

/-- The number of octal digits, which may have a plus in front; it has to fit into 64 bits. -/
def octalValue? (digits : List Char) : Option Nat :=
  let digits := match digits with
    | '+' :: rest => rest
    | digits => digits
  if digits ≠ [] ∧ digits.all isOctalDigit ∧ ofOctal digits < Nat.pow 2 64 then
    some (ofOctal digits)
  else none

/-- A number in octal digits, with white space around it. -/
def readOctal? (field : Bytes) : Option Nat := do
  let text ← Text.decode? ⟨(upToZero field).toArray⟩
  octalValue? (Text.trim text).toList

def ofBytes (b : Bytes) : Nat := b.foldl (fun n d => n * 256 + d.toNat) 0

/-- A number in either form. In bytes, a field of eight is read without its mark and a longer one by
its last eight. -/
def readNumber? (field : Bytes) : Option Nat :=
  match field with
  | [] => none
  | b :: rest =>
    if b &&& 0x80 = 0 then readOctal? field
    else if field.length = 8 then some (ofBytes ((b ^^^ 0x80) :: rest))
    else some (ofBytes (field.drop (field.length - 8)))

end ResourceModels.Archive
