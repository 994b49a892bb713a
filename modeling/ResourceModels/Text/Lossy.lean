import ResourceModels.Text

/-!
Bytes as text, whatever they are. What encodes no character becomes a replacement character: one for
each byte that can begin none, and one for each sequence that breaks off.
-/

namespace ResourceModels.Text

/-- An encoded character of which some bytes are still to come: their number, the range of the next
one, and the value so far. -/
structure Pending where
  left : Nat
  low : UInt8
  high : UInt8
  value : Nat

def replacement : Char := '\uFFFD'

/-- What a first byte begins: a character of its own, a longer one, or nothing. -/
inductive Start
  | char (c : Char)
  | pending (p : Pending)
  | invalid

def Start.ofByte (b : UInt8) : Start :=
  let n := b.toNat
  if n < 0x80 then .char (Char.ofNat n)
  else if n < 0xC2 then .invalid
  else if n < 0xE0 then .pending ⟨1, 0x80, 0xBF, n - 0xC0⟩
  else if n = 0xE0 then .pending ⟨2, 0xA0, 0xBF, 0⟩
  else if n = 0xED then .pending ⟨2, 0x80, 0x9F, 0xD⟩
  else if n < 0xF0 then .pending ⟨2, 0x80, 0xBF, n - 0xE0⟩
  else if n = 0xF0 then .pending ⟨3, 0x90, 0xBF, 0⟩
  else if n < 0xF4 then .pending ⟨3, 0x80, 0xBF, n - 0xF0⟩
  else if n = 0xF4 then .pending ⟨3, 0x80, 0x8F, 4⟩
  else .invalid

/-- The characters of bytes, the first of which may go on with a character begun before. -/
def lossyFrom : Option Pending → List UInt8 → List Char
  | none, [] => []
  | some _, [] => [replacement]
  | some p, b :: rest =>
    if p.low ≤ b ∧ b ≤ p.high then
      let value := p.value * 0x40 + (b.toNat - 0x80)
      if p.left = 1 then Char.ofNat value :: lossyFrom none rest
      else lossyFrom (some ⟨p.left - 1, 0x80, 0xBF, value⟩) rest
    else replacement ::
      match Start.ofByte b with
      | .char c => c :: lossyFrom none rest
      | .pending p => lossyFrom (some p) rest
      | .invalid => replacement :: lossyFrom none rest
  | none, b :: rest =>
    match Start.ofByte b with
    | .char c => c :: lossyFrom none rest
    | .pending p => lossyFrom (some p) rest
    | .invalid => replacement :: lossyFrom none rest

/-- The text of some bytes, with replacement characters for what is no text. -/
def lossy (bytes : List UInt8) : String := String.ofList (lossyFrom none bytes)

end ResourceModels.Text
