/-!
Magnitudes of 64-bit binary floating-point numbers, as `mantissa * 2 ^ scale`. A positive fraction
is rounded to the nearest of them, a tie going to the even mantissa; and each is named by the
decimal with the fewest digits that rounds back to it, the nearest of those, a tie going to the even
digit.
-/

namespace ResourceModels

/-- The number `mantissa * 2 ^ scale`; the mantissa is below `2 ^ 53`. -/
structure Binary64 where
  mantissa : Nat
  scale : Int
deriving DecidableEq, Repr

namespace Binary64

def zero : Binary64 := ⟨0, -1074⟩

/-- The quotient rounded to the nearest natural number, a tie going to the even one. -/
def roundDiv (num den : Nat) : Nat :=
  let q := num / den
  let twice := 2 * (num % den)
  if twice < den then q else if den < twice then q + 1 else q + q % 2

def shifted (num den : Nat) (scale : Int) : Nat × Nat :=
  if 0 ≤ scale then (num, den * Nat.pow 2 scale.toNat) else (num * Nat.pow 2 (-scale).toNat, den)

/-- The greatest exponent whose power of two is at most the fraction. -/
def floorLog2 (num den : Nat) : Int :=
  let e : Int := (Nat.log2 num : Int) - Nat.log2 den
  let (n, d) := shifted num den e
  if n < d then e - 1 else e

/-- The nearest number to a fraction, unless it is too large for the format. -/
def nearest? (num den : Nat) : Option Binary64 :=
  if num = 0 then some zero
  else
    let scale := max (-1074) (floorLog2 num den - 52)
    let (n, d) := shifted num den scale
    let m := roundDiv n d
    let (m, scale) := if m = Nat.pow 2 53 then (Nat.pow 2 52, scale + 1) else (m, scale)
    if scale ≤ 971 then some ⟨m, scale⟩ else none

def fraction (b : Binary64) : Nat × Nat :=
  if 0 ≤ b.scale then (b.mantissa * Nat.pow 2 b.scale.toNat, 1)
  else (b.mantissa, Nat.pow 2 (-b.scale).toNat)

def mul? (a b : Binary64) : Option Binary64 :=
  let (n, d) := a.fraction
  let (n', d') := b.fraction
  nearest? (n * n') (d * d')

/-- The rounded quotient by a number other than zero. -/
def div? (a b : Binary64) : Option Binary64 :=
  let (n, d) := a.fraction
  let (n', d') := b.fraction
  nearest? (n * d') (d * n')

/-- The nearest number to `digits * 10 ^ exponent`. Exponents far outside the format are not
expanded. -/
def ofDecimal? (digits : Nat) (exponent : Int) : Option Binary64 :=
  let size : Int := (Nat.toDigits 10 digits).length
  if digits = 0 ∨ size + exponent < -400 then some zero
  else if 400 < size + exponent then none
  else if 0 ≤ exponent then nearest? (digits * Nat.pow 10 exponent.toNat) 1
  else nearest? digits (Nat.pow 10 (-exponent).toNat)

/-- The bounds, times four and over `2 ^ scale`, between which everything rounds to the number.
Below a power of two the lower bound is half as far away. -/
def bounds (b : Binary64) : Nat × Nat :=
  let low := if b.mantissa = Nat.pow 2 52 ∧ -1074 < b.scale then 1 else 2
  (4 * b.mantissa - low, 4 * b.mantissa + 2)

/-- Whether `digits * 10 ^ exponent` rounds to the number. -/
def isNamedBy (b : Binary64) (digits : Nat) (exponent : Int) : Bool :=
  let (low, high) := b.bounds
  -- compare `digits * 10 ^ exponent` with `bound * 2 ^ (scale - 2)`
  let up (base : Nat) (e : Int) : Nat := if 0 ≤ e then Nat.pow base e.toNat else 1
  let down (base : Nat) (e : Int) : Nat := if 0 ≤ e then 1 else Nat.pow base (-e).toNat
  let scale := b.scale - 2
  let value := digits * up 10 exponent * down 2 scale
  let unit := up 2 scale * down 10 exponent
  if b.mantissa % 2 = 0 then low * unit ≤ value && value ≤ high * unit
  else low * unit < value && value < high * unit

/-- The number of decimal places of the leading digit: the greatest `e` with `10 ^ e` at most the
fraction. -/
def floorLog10 (num den : Nat) : Int :=
  if den ≤ num then ((Nat.toDigits 10 (num / den)).length : Int) - 1
  else
    let places := (Nat.toDigits 10 (den / num)).length
    if den ≤ num * Nat.pow 10 (places - 1) then -((places : Int) - 1) else -(places : Int)

/-- The digits of the two multiples of `10 ^ exponent` around the number, and whether the upper one
is the nearer; of two equally near the even one is. -/
def around (b : Binary64) (exponent : Int) : Nat × Nat × Bool :=
  let (num, den) := b.fraction
  let (n, d) :=
    if 0 ≤ exponent then (num, den * Nat.pow 10 exponent.toNat)
    else (num * Nat.pow 10 (-exponent).toNat, den)
  let digits := n / d
  (digits, digits + 1, roundDiv n d = digits + 1)

/-- Tries one digit more each time until a grid point names the number. -/
def shortestFrom (b : Binary64) (top : Int) : Nat → Nat → Nat × Int
  | 0, places => ((b.around (top - places)).1, top - places)
  | fuel + 1, places =>
    let exponent := top - places
    let (low, high, upper) := b.around exponent
    match b.isNamedBy low exponent, b.isNamedBy high exponent with
    | true, true => (if upper then high else low, exponent)
    | true, false => (low, exponent)
    | false, true => (high, exponent)
    | false, false => shortestFrom b top fuel (places + 1)

/-- Moves the zeros at the end of the digits into the exponent. -/
def trimZeros : Nat → Nat → Int → Nat × Int
  | 0, digits, exponent => (digits, exponent)
  | fuel + 1, digits, exponent =>
    if digits % 10 = 0 then trimZeros fuel (digits / 10) (exponent + 1) else (digits, exponent)

/-- The digits and the exponent of the decimal that names the number. -/
def shortest (b : Binary64) : Nat × Int :=
  if b.mantissa = 0 then (0, 0)
  else
    let (num, den) := b.fraction
    let (digits, exponent) := b.shortestFrom (floorLog10 num den) 18 0
    trimZeros 20 digits exponent

end Binary64

end ResourceModels
