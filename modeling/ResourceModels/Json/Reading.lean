import ResourceModels.Json

/-!
Reading JSON text from left to right: each reader takes the text that is left and gives what it read
with the text after it, or nothing if the text goes wrong. A value of which only the extent matters
is passed over by its grammar alone.
-/

namespace ResourceModels.Json

def isBlank (c : Char) : Bool := c = ' ' || c = '\n' || c = '\t' || c = '\r'

def skipBlanks (s : List Char) : List Char := s.dropWhile isBlank

def hexValue? (c : Char) : Option Nat :=
  if '0' ≤ c ∧ c ≤ '9' then some (c.toNat - '0'.toNat)
  else if 'a' ≤ c ∧ c ≤ 'f' then some (c.toNat - 'a'.toNat + 10)
  else if 'A' ≤ c ∧ c ≤ 'F' then some (c.toNat - 'A'.toNat + 10)
  else none

/-- Four hexadecimal digits. -/
def hexUnit? : List Char → Option (Nat × List Char)
  | a :: b :: c :: d :: rest => do
    let value := (((← hexValue? a) * 16 + (← hexValue? b)) * 16 + (← hexValue? c)) * 16
    return (value + (← hexValue? d), rest)
  | _ => none

/-- The character of an escape `\u`; one beyond the first plane takes a pair of surrogates. -/
def hexEscape? (s : List Char) : Option (Char × List Char) := do
  let (unit, rest) ← hexUnit? s
  if 0xD800 ≤ unit ∧ unit < 0xDC00 then
    match rest with
    | '\\' :: 'u' :: rest =>
      let (low, rest) ← hexUnit? rest
      if 0xDC00 ≤ low ∧ low < 0xE000 then
        some (Char.ofNat (0x10000 + (unit - 0xD800) * 0x400 + (low - 0xDC00)), rest)
      else none
    | _ => none
  else if 0xDC00 ≤ unit ∧ unit < 0xE000 then none
  else some (Char.ofNat unit, rest)

/-- The character after a backslash. -/
def escaped? : List Char → Option (Char × List Char)
  | '"' :: rest => some ('"', rest)
  | '\\' :: rest => some ('\\', rest)
  | '/' :: rest => some ('/', rest)
  | 'b' :: rest => some ('\x08', rest)
  | 'f' :: rest => some ('\x0c', rest)
  | 'n' :: rest => some ('\n', rest)
  | 'r' :: rest => some ('\r', rest)
  | 't' :: rest => some ('\t', rest)
  | 'u' :: rest => hexEscape? rest
  | _ => none

/-- The text up to the closing quote. The fuel is the length of the text. -/
def quoted? : Nat → List Char → List Char → Option (String × List Char)
  | 0, _, _ => none
  | _ + 1, _, [] => none
  | _ + 1, read, '"' :: rest => some (String.ofList read.reverse, rest)
  | fuel + 1, read, '\\' :: rest => do
    let (c, rest) ← escaped? rest
    quoted? fuel (c :: read) rest
  | fuel + 1, read, c :: rest => if c.toNat < 0x20 then none else quoted? fuel (c :: read) rest

def digitValues (s : List Char) : List Nat := s.map fun c => c.toNat - '0'.toNat

/-- Takes up digits while the number stays below `2 ^ 64`, and counts those that are left. -/
def absorb : Nat → List Nat → Nat × Nat
  | significand, [] => (significand, 0)
  | significand, d :: rest =>
    if significand * 10 + d < Nat.pow 2 64 then absorb (significand * 10 + d) rest
    else (significand, rest.length + 1)

structure NumberText where
  negative : Bool
  whole : List Char
  part : Option (List Char)
  exponent : Option Int

/-- The number that is written, unless it is too large. Without point and exponent it is an integer
if it fits into 64 bits with or without sign. -/
def NumberText.value? (t : NumberText) : Option Json :=
  let (significand, left) := absorb 0 (digitValues t.whole)
  match t.part, t.exponent with
  | none, none =>
    if 0 < left then (Decimal.scaled? t.negative significand left).map .float
    else if !t.negative then some (.int significand)
    else if significand ≠ 0 ∧ significand ≤ Nat.pow 2 63 then some (.int (-significand))
    else (Decimal.scaled? true significand 0).map .float
  | part, exponent =>
    let digits := digitValues (part.getD [])
    let (significand, unread) := absorb significand digits
    let scale : Int := (left : Int) - (digits.length - unread : Nat) + exponent.getD 0
    (Decimal.scaled? t.negative significand scale).map .float

def digits (s : List Char) : List Char × List Char := s.span Char.isDigit

def natOfDigits (s : List Nat) : Nat := s.foldl (fun n d => n * 10 + d) 0

/-- The exponent of a number, if it has one; no result if it is not well formed. -/
def exponent? : List Char → Option (Option Int × List Char)
  | c :: rest =>
    if c = 'e' ∨ c = 'E' then
      let (negative, rest) := match rest with
        | '-' :: rest => (true, rest)
        | '+' :: rest => (false, rest)
        | rest => (false, rest)
      match digits rest with
      | ([], _) => none
      | (ds, rest) =>
        let n : Int := natOfDigits (digitValues ds)
        some (some (if negative then -n else n), rest)
    else some (none, c :: rest)
  | [] => some (none, [])

/-- The digits after the point of a number, if it has one. -/
def part? : List Char → Option (Option (List Char) × List Char)
  | '.' :: rest =>
    match digits rest with
    | ([], _) => none
    | (ds, rest) => some (some ds, rest)
  | rest => some (none, rest)

/-- A number; a zero in front stands alone. -/
def numberText? (s : List Char) : Option (NumberText × List Char) := do
  let (negative, s) := match s with
    | '-' :: rest => (true, rest)
    | rest => (false, rest)
  let (whole, rest) ← match digits s with
    | ([], _) => none
    | ('0' :: _ :: _, _) => none
    | split => some split
  let (part, rest) ← part? rest
  let (exponent, rest) ← exponent? rest
  return (⟨negative, whole, part, exponent⟩, rest)

/-- A value without parts. -/
def readScalar? : List Char → Option (Json × List Char)
  | 'n' :: 'u' :: 'l' :: 'l' :: rest => some (.null, rest)
  | 't' :: 'r' :: 'u' :: 'e' :: rest => some (.bool true, rest)
  | 'f' :: 'a' :: 'l' :: 's' :: 'e' :: rest => some (.bool false, rest)
  | '"' :: rest => (quoted? (rest.length + 1) [] rest).map fun (s, rest) => (.str s, rest)
  | s => do
    let (t, rest) ← numberText? s
    return (← t.value?, rest)

mutual

/-- A value, after blanks. `depth` is the number of levels that may still be opened. -/
def readValue? : Nat → Nat → List Char → Option (Json × List Char)
  | 0, _, _ => none
  | fuel + 1, depth, s =>
    match skipBlanks s, depth with
    | '[' :: _, 0 => none
    | '\x7b' :: _, 0 => none
    | '[' :: rest, depth + 1 =>
      match skipBlanks rest with
      | ']' :: rest => some (.arr [], rest)
      | rest => readItems? fuel depth [] rest
    | '\x7b' :: rest, depth + 1 =>
      match skipBlanks rest with
      | '\x7d' :: rest => some (.obj [], rest)
      | rest => readFields? fuel depth [] rest
    | s, _ => readScalar? s

/-- The items of an array from one of them on. `read` holds those before, backwards. -/
def readItems? : Nat → Nat → List Json → List Char → Option (Json × List Char)
  | 0, _, _, _ => none
  | fuel + 1, depth, read, s => do
    let (j, rest) ← readValue? fuel depth s
    match skipBlanks rest with
    | ']' :: rest => return (.arr (j :: read).reverse, rest)
    | ',' :: rest => readItems? fuel depth (j :: read) rest
    | _ => none

def readFields? : Nat → Nat → List (String × Json) → List Char → Option (Json × List Char)
  | 0, _, _, _ => none
  | fuel + 1, depth, read, s =>
    match skipBlanks s with
    | '"' :: rest => do
      let (key, rest) ← quoted? (rest.length + 1) [] rest
      match skipBlanks rest with
      | ':' :: rest =>
        let (j, rest) ← readValue? fuel depth rest
        match skipBlanks rest with
        | '\x7d' :: rest => return (.obj ((key, j) :: read).reverse, rest)
        | ',' :: rest => readFields? fuel depth ((key, j) :: read) rest
        | _ => none
      | _ => none
    | _ => none

end

/-- The value of a text that holds one value and blanks, with its fields in order of key. Values may
be nested 127 deep. -/
def parse? (text : String) : Option Json :=
  let s := text.toList
  match readValue? (2 * s.length + 2) 127 s with
  | some (j, rest) => if (skipBlanks rest).isEmpty then some j.sorted else none
  | none => none

/-- The text after a closing quote. What an escape stands for does not matter. -/
def afterQuote? : Nat → List Char → Option (List Char)
  | 0, _ => none
  | _ + 1, [] => none
  | _ + 1, '"' :: rest => some rest
  | fuel + 1, '\\' :: 'u' :: rest => do afterQuote? fuel (← hexUnit? rest).2
  | fuel + 1, '\\' :: rest => do afterQuote? fuel (← escaped? rest).2
  | fuel + 1, c :: rest => if c.toNat < 0x20 then none else afterQuote? fuel rest

def afterScalar? : List Char → Option (List Char)
  | '"' :: rest => afterQuote? (rest.length + 1) rest
  | s => if s.head?.any (fun c => c = '-' || c.isDigit) then (numberText? s).map (·.2)
    else (readScalar? s).map (·.2)

mutual

/-- The text after a value, which may be nested as deep as it likes and whose numbers may be of any
size. -/
def afterValue? : Nat → List Char → Option (List Char)
  | 0, _ => none
  | fuel + 1, s =>
    match skipBlanks s with
    | '[' :: rest =>
      match skipBlanks rest with
      | ']' :: rest => some rest
      | rest => afterItems? fuel rest
    | '\x7b' :: rest =>
      match skipBlanks rest with
      | '\x7d' :: rest => some rest
      | rest => afterFields? fuel rest
    | s => afterScalar? s

def afterItems? : Nat → List Char → Option (List Char)
  | 0, _ => none
  | fuel + 1, s => do
    match skipBlanks (← afterValue? fuel s) with
    | ']' :: rest => return rest
    | ',' :: rest => afterItems? fuel rest
    | _ => none

def afterFields? : Nat → List Char → Option (List Char)
  | 0, _ => none
  | fuel + 1, s =>
    match skipBlanks s with
    | '"' :: rest => do
      match skipBlanks (← afterQuote? (rest.length + 1) rest) with
      | ':' :: rest =>
        match skipBlanks (← afterValue? fuel rest) with
        | '\x7d' :: rest => return rest
        | ',' :: rest => afterFields? fuel rest
        | _ => none
      | _ => none
    | _ => none

end

end ResourceModels.Json
