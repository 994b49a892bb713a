import ResourceModels.Text

/-!
Whole numbers of a fixed width in decimal digits.
-/

namespace ResourceModels.Text

def ofDigits (digits : List Char) : Nat := digits.foldl (fun n c => n * 10 + (c.toNat - 48)) 0

/-- The number of a text that consists of digits. -/
def digits? (s : List Char) : Option Nat :=
  if s ≠ [] ∧ s.all Char.isDigit then some (ofDigits s) else none

/-- A number below `2 ^ bits`, which may have a plus in front. -/
def unsigned? (bits : Nat) (s : List Char) : Option Nat :=
  (digits? (match s with
    | '+' :: rest => rest
    | s => s)).filter (· < Nat.pow 2 bits)

/-- A number of `bits` bits with a sign, which may be left out. -/
def signed? (bits : Nat) (s : List Char) : Option Int :=
  match s with
  | '-' :: rest => ((digits? rest).filter (· ≤ Nat.pow 2 (bits - 1))).map fun n => -n
  | s => (unsigned? (bits - 1) s).map fun n => n

end ResourceModels.Text
