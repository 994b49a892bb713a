import ResourceModels.Yaml.Cursor

/-!
The texts that scalars stand for: plain, quoted and block scalars. Each function takes the place
where a scalar starts and gives its text and the place after it, or nothing when it is malformed.
-/

namespace ResourceModels.Yaml

/-- Blanks and line breaks within a scalar. Blanks count only on a line that goes on; of breaks the
first is kept apart from the further ones, since alone it is read as a blank. Lists of characters
are held backwards, but for the first break. -/
structure Gap where
  blanks : List Char
  first : List Char
  further : List Char
  broken : Bool

namespace Gap

def none : Gap := ⟨[], [], [], false⟩

/-- The text that a gap is read as, backwards. -/
def folded (g : Gap) : List Char :=
  if g.broken then
    if g.first = ['\n'] then if g.further.isEmpty then [' '] else g.further
    else g.further ++ g.first.reverse
  else g.blanks

/-- Reads blanks and breaks. A tab left of column `indent` on a new line is refused. -/
def read (indent : Nat) : Nat → Gap → Cursor → Option (Gap × Cursor)
  | 0, g, c => some (g, c)
  | fuel + 1, g, c =>
    match c.rest with
    | [] => some (g, c)
    | d :: _ =>
      if isBlank d then
        if g.broken then
          if d = '\t' ∧ c.column < indent then Option.none else read indent fuel g (c.skip 1)
        else read indent fuel { g with blanks := d :: g.blanks } (c.skip 1)
      else if isBreak d then
        let (text, c) := c.readBreak
        if g.broken then read indent fuel { g with further := text.reverse ++ g.further } c
        else read indent fuel { g with blanks := [], first := text, broken := true } c
      else some (g, c)

end Gap

/-- Whether a plain scalar ends before the next character. -/
def endsPlain (inFlow : Bool) : List Char → Bool
  | [] => true
  | ':' :: rest => atGap rest
  | c :: _ => inFlow && (c = ',' || c = '[' || c = ']' || c = '\x7b' || c = '\x7d')

/-- A colon that in a flow collection neither ends a plain scalar nor belongs to it. -/
def isStrayColon : List Char → Bool
  | ':' :: c :: _ =>
    c = ',' || c = '?' || c = '[' || c = ']' || c = '\x7b' || c = '\x7d'
  | _ => false

structure Plain where
  text : List Char
  /-- Whether the scalar is followed by a line break, so that a key may start after it. -/
  broken : Bool
  next : Cursor

/-- Reads the words of a plain scalar. `text` is what was read, backwards, and `gap` what stands
between it and the next character. -/
def plainFrom (inFlow : Bool) (indent : Nat) : Nat → List Char → Gap → Cursor → Option Plain
  | 0, text, gap, c => some ⟨text.reverse, gap.broken, c⟩
  | fuel + 1, text, gap, c =>
    match c.rest with
    | [] => some ⟨text.reverse, gap.broken, c⟩
    | d :: _ =>
      if isSpace d then do
        let (gap, c) ← Gap.read indent (c.rest.length + 1) .none c
        if !inFlow && c.column < indent then some ⟨text.reverse, gap.broken, c⟩
        else if c.atDocumentMark || c.startsWith (· = '#') then
          some ⟨text.reverse, gap.broken, c⟩
        else plainFrom inFlow indent fuel text gap c
      else if inFlow && isStrayColon c.rest then Option.none
      else if endsPlain inFlow c.rest then some ⟨text.reverse, gap.broken, c⟩
      else plainFrom inFlow indent fuel (d :: (gap.folded ++ text)) .none (c.skip 1)

def plain (inFlow : Bool) (indent : Nat) (c : Cursor) : Option Plain :=
  plainFrom inFlow indent (2 * c.rest.length + 1) [] .none c

def hexValue? (c : Char) : Option Nat :=
  if '0' ≤ c ∧ c ≤ '9' then some (c.toNat - '0'.toNat)
  else if 'a' ≤ c ∧ c ≤ 'f' then some (c.toNat - 'a'.toNat + 10)
  else if 'A' ≤ c ∧ c ≤ 'F' then some (c.toNat - 'A'.toNat + 10)
  else none

/-- The number written by `n` hexadecimal digits. -/
def hexNumber? : Nat → Nat → List Char → Option Nat
  | 0, value, _ => some value
  | n + 1, value, c :: rest => do hexNumber? n (value * 16 + (← hexValue? c)) rest
  | _ + 1, _, [] => none

/-- The character of a code point, other than a surrogate. -/
def charOfCode? (n : Nat) : Option Char :=
  if h : n.isValidChar then some (Char.ofNatAux n h) else none

/-- The character that an escape after a backslash stands for, and its length. -/
def escape? : List Char → Option (Char × Nat)
  | [] => none
  | c :: rest =>
    let coded (n : Nat) : Option (Char × Nat) := do
      return (← charOfCode? (← hexNumber? n 0 rest), n + 1)
    if c = '0' then some ('\x00', 1)
    else if c = 'a' then some ('\x07', 1)
    else if c = 'b' then some ('\x08', 1)
    else if c = 't' ∨ c = '\t' then some ('\t', 1)
    else if c = 'n' then some ('\n', 1)
    else if c = 'v' then some ('\x0b', 1)
    else if c = 'f' then some ('\x0c', 1)
    else if c = 'r' then some ('\r', 1)
    else if c = 'e' then some ('\x1b', 1)
    else if c = ' ' ∨ c = '"' ∨ c = '/' ∨ c = '\\' then some (c, 1)
    else if c = 'N' then some ('\u0085', 1)
    else if c = '_' then some ('\u00a0', 1)
    else if c = 'L' then some ('\u2028', 1)
    else if c = 'P' then some ('\u2029', 1)
    else if c = 'x' then coded 2
    else if c = 'u' then coded 4
    else if c = 'U' then coded 8
    else none

/-- Reads a quoted scalar after its opening quote. -/
def quotedFrom (quote : Char) : Nat → List Char → Cursor → Option (List Char × Cursor)
  | 0, _, _ => none
  | fuel + 1, text, c =>
    match c.rest with
    | [] => none
    | d :: rest =>
      if isSpace d then do
        let (gap, c) ← Gap.read 0 (c.rest.length + 1) .none c
        if c.atDocumentMark then none else quotedFrom quote fuel (gap.folded ++ text) c
      else if d = quote then
        if quote = '\'' ∧ rest.head? = some '\'' then
          quotedFrom quote fuel ('\'' :: text) (c.skip 2)
        else some (text.reverse, c.skip 1)
      else if quote = '"' ∧ d = '\\' then
        if (rest.head?.map isBreak).getD false then do
          -- an escaped break leaves nothing but the breaks after it
          let c := (c.skip 1).readBreak.2
          if c.atDocumentMark then none
          else
            let (gap, c) ← Gap.read 0 (c.rest.length + 1) ⟨[], [], [], true⟩ c
            if c.atDocumentMark then none else quotedFrom quote fuel (gap.folded ++ text) c
        else do
          let (e, n) ← escape? rest
          quotedFrom quote fuel (e :: text) (c.skip (n + 1))
      else quotedFrom quote fuel (d :: text) (c.skip 1)

/-- The text between two quotes, of a quoted scalar that starts here. -/
def quoted (quote : Char) (c : Cursor) : Option (List Char × Cursor) :=
  quotedFrom quote (c.rest.length + 1) [] (c.skip 1)

/-- What becomes of the breaks at the end of a block scalar. -/
inductive Chomping
  | clip
  | strip
  | keep
deriving DecidableEq

/-- Reads empty lines and the indentation of the next one. While the indentation is not known, it is
0 and blanks are passed over without end; `deepest` is the greatest column seen. -/
def blockBreaks (indent : Nat) : Nat → Nat → List Char → Cursor → Option (Nat × List Char × Cursor)
  | 0, deepest, breaks, c => some (deepest, breaks, c)
  | fuel + 1, deepest, breaks, c =>
    let blanks := (c.rest.takeWhile (· = ' ')).length
    let c := c.skip (if indent = 0 then blanks else min blanks (indent - c.column))
    let deepest := max deepest c.column
    if (indent = 0 || c.column < indent) && c.startsWith (· = '\t') then none
    else if c.startsWith isBreak then
      let (text, c) := c.readBreak
      blockBreaks indent fuel deepest (text.reverse ++ breaks) c
    else some (deepest, breaks, c)

/-- Reads the lines of a block scalar. `lead` is the break that ended the line before, `further` the
empty lines after it, backwards, and `wasBlank` says whether that line began with a blank. -/
def blockLines (literal : Bool) (indent : Nat) :
    Nat → List Char → List Char → List Char → Bool → Cursor →
      Option (List Char × List Char × List Char × Cursor)
  | 0, text, lead, further, _, c => some (text, lead, further, c)
  | fuel + 1, text, lead, further, wasBlank, c =>
    if c.column ≠ indent ∨ c.rest.isEmpty then some (text, lead, further, c)
    else do
      let startsBlank := c.startsWith isBlank
      let joined :=
        if !literal && lead = ['\n'] && !wasBlank && !startsBlank then
          if further.isEmpty then ' ' :: text else further ++ text
        else further ++ (lead ++ text)
      let line := c.rest.takeWhile (!isBreak ·)
      let (lead, c) := (c.skip line.length).readBreak
      let (_, further, c) ← blockBreaks indent (c.rest.length + 1) 0 [] c
      blockLines literal indent fuel (line.reverse ++ joined) lead further startsBlank c

/-- The header of a block scalar after its indicator: how to chomp, and the given indentation. -/
def blockHeader (c : Cursor) : Option (Chomping × Option Nat × Cursor) :=
  let chomp? (d : Char) : Option Chomping :=
    if d = '+' then some .keep else if d = '-' then some .strip else none
  let digit? (d : Char) : Option Nat := if d.isDigit then some (d.toNat - '0'.toNat) else none
  match c.rest with
  | [] => some (.clip, none, c)
  | d :: rest =>
    match chomp? d, digit? d with
    | some chomping, _ =>
      match rest.head?.bind digit? with
      | some 0 => none
      | some n => some (chomping, some n, c.skip 2)
      | none => some (chomping, none, c.skip 1)
    | none, some 0 => none
    | none, some n =>
      match rest.head?.bind chomp? with
      | some chomping => some (chomping, some n, c.skip 2)
      | none => some (.clip, some n, c.skip 1)
    | none, none => some (.clip, none, c)

/-- A block scalar that starts here, within a block of indentation `outer`, which is negative
outside of any. -/
def block (literal : Bool) (outer : Int) (c : Cursor) : Option (List Char × Cursor) := do
  let (chomping, given, c) ← blockHeader (c.skip 1)
  let c := c.skipWhile isBlank
  let c := if c.startsWith (· = '#') then c.skipLine else c
  if !c.rest.isEmpty && !c.startsWith isBreak then none
  else
    let c := c.readBreak.2
    let fixed : Nat := match given with
      | some n => if 0 ≤ outer then outer.toNat + n else n
      | none => 0
    let (deepest, further, c) ← blockBreaks fixed (c.rest.length + 1) 0 [] c
    let indent := if fixed = 0 then max (max deepest (outer + 1).toNat) 1 else fixed
    let (text, lead, further, c) ←
      blockLines literal indent (c.rest.length + 1) [] [] further false c
    let text := match chomping with
      | .strip => text
      | .clip => lead ++ text
      | .keep => further ++ (lead ++ text)
    return (text.reverse, c)

end ResourceModels.Yaml
