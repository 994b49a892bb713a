import ResourceModels.Binary64

/-!
Numbers with a fraction, as they are read and written. A finite 64-bit floating-point number is held
by the shortest decimal that names it, so two equal numbers are equal digit by digit.
-/

namespace ResourceModels

/-- The number `digits * 10 ^ exponent`, or its negative; a zero may be negative too. -/
structure Decimal where
  negative : Bool
  digits : Nat
  exponent : Int
deriving DecidableEq, Repr, Inhabited

namespace Decimal

def ofBinary64 (negative : Bool) (b : Binary64) : Decimal :=
  let (digits, exponent) := b.shortest
  ⟨negative, digits, exponent⟩

/-- The floating-point number nearest to a decimal, unless it is too large. -/
def nearest? (negative : Bool) (digits : Nat) (exponent : Int) : Option Decimal :=
  (Binary64.ofDecimal? digits exponent).map (ofBinary64 negative)

/-- A significand scaled step by step in floating-point arithmetic: one multiplication or division
by a power of ten up to `10 ^ 308`, each rounded. -/
def scale (b : Binary64) : Nat → Int → Option Binary64
  | 0, _ => some b
  | fuel + 1, exponent =>
    if exponent.natAbs ≤ 308 then do
      let power ← Binary64.ofDecimal? 1 exponent.natAbs
      if 0 ≤ exponent then b.mul? power else b.div? power
    else if b.mantissa = 0 then some b
    else if 0 ≤ exponent then none
    else do scale (← b.div? (← Binary64.ofDecimal? 1 308)) fuel (exponent + 308)

/-- The number read from a significand below `2 ^ 64` and an exponent, unless it is too large. The
significand is rounded before it is scaled, so the last digit may differ from `nearest?`. -/
def scaled? (negative : Bool) (significand : Nat) (exponent : Int) : Option Decimal := do
  let b ← Binary64.nearest? significand 1
  return ofBinary64 negative (← scale b 5 (max exponent (-1300)))

/-- The digits with a point among or after them, and zeros where digits are missing. -/
def positional (d : Decimal) : String :=
  let digits := toString d.digits
  let places : Int := digits.length + d.exponent
  if 0 ≤ d.exponent then digits ++ String.ofList (List.replicate d.exponent.toNat '0') ++ ".0"
  else if 0 < places then
    String.ofList (digits.toList.take places.toNat) ++ "." ++
      String.ofList (digits.toList.drop places.toNat)
  else "0." ++ String.ofList (List.replicate (-places).toNat '0') ++ digits

/-- One digit before the point, and an exponent; `plus` is the sign of one that is not negative. -/
def scientific (plus : String) (d : Decimal) : String :=
  let digits := toString d.digits
  let places : Int := digits.length + d.exponent
  let point := if digits.length = 1 then digits
    else String.ofList (digits.toList.take 1) ++ "." ++ String.ofList (digits.toList.drop 1)
  point ++ "e" ++ (if 1 ≤ places then plus else "") ++ toString (places - 1)

def signed (d : Decimal) (text : String) : String := if d.negative then "-" ++ text else text

/-- The text of a number: positional with up to sixteen places before the point and up to four
zeros after it, and with an exponent elsewhere. -/
def render (plus : String) (d : Decimal) : String :=
  let places : Int := (toString d.digits).length + d.exponent
  d.signed <|
    if d.digits = 0 then "0.0"
    else if -5 < places ∧ places ≤ 16 then d.positional
    else d.scientific plus

/-- The text of a number that has no exponent at any size. -/
def written (d : Decimal) : String := d.signed (if d.digits = 0 then "0.0" else d.positional)

end Decimal

end ResourceModels
