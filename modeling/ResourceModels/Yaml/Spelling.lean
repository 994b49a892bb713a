import ResourceModels.Decimal
import ResourceModels.Yaml.Scalar

/-!
The spellings of nulls, booleans, integers and numbers with a fraction. A text that is spelled like
none of them is a text.
-/

namespace ResourceModels.Yaml

/-- A number with a fraction, or one of the values that are no numbers. -/
inductive FloatValue
  | finite (x : Decimal)
  | infinity (negative : Bool)
  | nan
deriving DecidableEq, Repr

/-- What a plain scalar may be. -/
inductive Plain.Reading
  | null
  | bool (b : Bool)
  | int (n : Int)
  | float (x : FloatValue)
  | str
deriving DecidableEq, Repr

namespace Spelling

def null? (s : String) : Bool := s = "null" || s = "Null" || s = "NULL" || s = "~"

def bool? (s : String) : Option Bool :=
  if s = "true" ∨ s = "True" ∨ s = "TRUE" then some true
  else if s = "false" ∨ s = "False" ∨ s = "FALSE" then some false
  else none

def digitValue? (radix : Nat) (c : Char) : Option Nat := do
  let n ← hexValue? c
  if n < radix then some n else none

/-- A non-empty text of digits. -/
def digits? (radix : Nat) (s : List Char) : Option Nat :=
  if s.isEmpty then none
  else s.foldlM (fun n c => do return n * radix + (← digitValue? radix c)) 0

def marked? : List Char → Option Nat
  | '0' :: 'x' :: rest => digits? 16 rest
  | '0' :: 'o' :: rest => digits? 8 rest
  | '0' :: 'b' :: rest => digits? 2 rest
  | _ => none

def dropSign : List Char → List Char
  | '+' :: rest => rest
  | '-' :: rest => rest
  | rest => rest

/-- Several digits with a zero in front: such a text is no number. -/
def isPadded (s : List Char) : Bool :=
  match dropSign s with
  | '0' :: d :: rest => (d :: rest).all Char.isDigit
  | _ => false

/-- A natural number of any size, with or without a plus sign. -/
def nat? (s : List Char) : Option Nat :=
  let rest := match s with
    | '+' :: rest => rest
    | rest => rest
  match marked? rest with
  | some n => some n
  | none => if isPadded s then none else digits? 10 rest

/-- An integer of any size. -/
def int? (s : List Char) : Option Int :=
  match s with
  | '-' :: rest =>
    match marked? rest with
    | some n => some (-(n : Int))
    | none => if isPadded s then none else (digits? 10 rest).map fun n => -(n : Int)
  | _ => (nat? s).map fun n => (n : Int)

/-- An exponent: nothing, or `e`, a sign and digits. -/
def exponent? : List Char → Option Int
  | [] => some 0
  | e :: rest =>
    if e = 'e' ∨ e = 'E' then
      match rest with
      | '-' :: rest => (digits? 10 rest).map fun n => -(n : Int)
      | '+' :: rest => (digits? 10 rest).map fun n => (n : Int)
      | rest => (digits? 10 rest).map fun n => (n : Int)
    else none

/-- A decimal without sign, with digits before or after the point, if it is not too large. -/
def decimal? (negative : Bool) (s : List Char) : Option Decimal :=
  let (whole, rest) := s.span Char.isDigit
  let (part, rest) := match rest with
    | '.' :: rest => rest.span Char.isDigit
    | rest => ([], rest)
  if whole.isEmpty && part.isEmpty then none
  else do
    let e ← exponent? rest
    Decimal.nearest? negative (← digits? 10 (whole ++ part)) (e - part.length)

def float? (s : String) : Option FloatValue :=
  let unsigned := match s.toList with
    | '+' :: rest => rest
    | rest => rest
  let word := String.ofList unsigned
  if s.toList ≠ unsigned ∧ dropSign unsigned ≠ unsigned then none
  else if word = ".inf" ∨ word = ".Inf" ∨ word = ".INF" then some (.infinity false)
  else if s = "-.inf" ∨ s = "-.Inf" ∨ s = "-.INF" then some (.infinity true)
  else if s = ".nan" ∨ s = ".NaN" ∨ s = ".NAN" then some .nan
  else match unsigned with
    | '-' :: rest => (decimal? true rest).map .finite
    | rest => (decimal? false rest).map .finite

def reading (s : String) : Plain.Reading :=
  if s = "" || null? s then .null
  else match bool? s with
    | some b => .bool b
    | none =>
      match int? s.toList with
      | some n =>
        -- an integer beyond 128 bits is read as a number with a fraction
        if -(Nat.pow 2 127 : Int) ≤ n ∧ n < Nat.pow 2 128 then .int n
        else match float? s with
          | some x => .float x
          | none => .str
      | none =>
        if isPadded s.toList then .str
        else match float? s with
          | some x => .float x
          | none => .str

end Spelling

end ResourceModels.Yaml
