import ResourceModels.Json
import ResourceModels.Yaml.Value

/-!
The YAML text of a JSON value. Collections are written as blocks with two blanks for each level, the
items of a list not indented under their key, and the fields of an object in the order they stand.
A text is written plain where it can be read back as itself, and else quoted; a text of several
lines is written as a literal block. Lines are never folded.
-/

namespace ResourceModels.Yaml

/-- How a text may be written. -/
inductive Style
  | plain
  | single
  | double
  | literal
deriving DecidableEq, Repr

namespace Writing

/-- The characters that need no escape. -/
def isPrintable (c : Char) : Bool :=
  let n := c.toNat
  n = 0x0A || (0x20 ≤ n && n ≤ 0x7E) || (0xA0 ≤ n && n ≤ 0xFFFD && n ≠ 0xFEFF) || 0x10000 ≤ n

/-- Whether some character and the one after it have the given properties. -/
def somePair (p q : Char → Bool) : List Char → Bool
  | a :: b :: rest => (p a && q b) || somePair p q (b :: rest)
  | _ => false

def firstIs (p : Char → Bool) (s : List Char) : Bool := (s.head?.map p).getD false

def lastIs (p : Char → Bool) (s : List Char) : Bool := (s.getLast?.map p).getD false

/-- Whether a colon stands before a blank or the end, or a `#` after a blank. -/
def hasMark : List Char → Bool
  | ':' :: rest => atGap rest || hasMark rest
  | c :: '#' :: rest => isSpace c || hasMark ('#' :: rest)
  | _ :: rest => hasMark rest
  | [] => false

/-- Whether the text would be taken for something else where a plain scalar may stand. -/
def hasIndicator (s : List Char) : Bool :=
  hasMark s ||
  match s with
  | '-' :: '-' :: '-' :: _ => true
  | '.' :: '.' :: '.' :: _ => true
  | c :: rest =>
    c ∈ ['#', ',', '[', ']', '\x7b', '\x7d', '&', '*', '!', '|', '>', '\'', '"', '%', '@', '`'] ||
      ((c = '?' || c = ':' || c = '-') && atGap rest)
  | [] => false

def isBlankChar (c : Char) : Bool := c = ' '

def plainAllowed (s : List Char) : Bool :=
  !(firstIs isBlankChar s || lastIs isBlankChar s || s.any isBreak || s.any (!isPrintable ·) ||
    hasIndicator s)

def singleAllowed (s : List Char) : Bool :=
  !(somePair isBreak isBlankChar s || somePair isBlankChar isBreak s || s.any (!isPrintable ·))

def literalAllowed (s : List Char) : Bool :=
  !(lastIs isBlankChar s || somePair isBlankChar isBreak s || s.any (!isPrintable ·))

/-- Whether a plain scalar of this text would be read as something else than a text. -/
def readsOtherwise (s : String) : Bool :=
  Spelling.reading s ≠ .str || Spelling.isPadded s.toList

/-- The style of a text. A key on one line with its value takes up no line breaks. -/
def style (asKey : Bool) (s : String) : Style :=
  let cs := s.toList
  if asKey && cs.any isBreak then .double
  else if cs.contains '\n' then if literalAllowed cs && !asKey then .literal else .double
  else if !readsOtherwise s && plainAllowed cs then .plain
  else if singleAllowed cs then .single
  else .double

def upperHex (n : Nat) : Char := (Nat.digitChar n).toUpper

/-- The last `n` hexadecimal digits of a number. -/
def hex : Nat → Nat → List Char
  | 0, _ => []
  | n + 1, value => hex n (value / 16) ++ [upperHex (value % 16)]

/-- How a character stands between double quotes. -/
def escape (c : Char) : List Char :=
  let n := c.toNat
  if isPrintable c && !isBreak c && c ≠ '"' && c ≠ '\\' then [c]
  else if n = 0 then ['\\', '0']
  else if n = 0x07 then ['\\', 'a']
  else if n = 0x08 then ['\\', 'b']
  else if n = 0x09 then ['\\', 't']
  else if n = 0x0A then ['\\', 'n']
  else if n = 0x0B then ['\\', 'v']
  else if n = 0x0C then ['\\', 'f']
  else if n = 0x0D then ['\\', 'r']
  else if n = 0x1B then ['\\', 'e']
  else if c = '"' ∨ c = '\\' then ['\\', c]
  else if n = 0x85 then ['\\', 'N']
  else if n = 0x2028 then ['\\', 'L']
  else if n = 0x2029 then ['\\', 'P']
  else if n ≤ 0xFF then ['\\', 'x'] ++ hex 2 n
  else if n ≤ 0xFFFF then ['\\', 'u'] ++ hex 4 n
  else ['\\', 'U'] ++ hex 8 n

def blanks (n : Nat) : List Char := List.replicate n ' '

/-- The lines of a literal block or of a single-quoted text: characters after a break are indented,
and `onChar` says how one is written. `fresh` says whether a break came last. -/
def lines (indent : Nat) (onChar : Char → List Char) : Bool → List Char → List Char
  | _, [] => []
  | fresh, c :: rest =>
    if isBreak c then c :: lines indent onChar true rest
    else (if fresh then blanks indent else []) ++ onChar c ++ lines indent onChar false rest

/-- What follows the bar of a literal block: the indentation if it cannot be seen from the first
line, and what becomes of the line breaks at the end. -/
def literalHints (s : List Char) : List Char :=
  (if firstIs (fun c => c = ' ' || isBreak c) s then ['2'] else []) ++
  match s.reverse with
  | last :: before =>
    if !isBreak last then ['-']
    else if before.isEmpty || firstIs isBreak before then ['+']
    else []
  | [] => ['-']

def scalarChars (asKey : Bool) (indent : Nat) (s : String) : List Char :=
  let cs := s.toList
  match style asKey s with
  | .plain => cs
  | .single =>
    ['\''] ++ lines indent (fun c => if c = '\'' then ['\'', '\''] else [c]) false cs ++
      (if lastIs isBreak cs then blanks indent else []) ++ ['\'']
  | .double => ['"'] ++ cs.flatMap escape ++ ['"']
  | .literal => ['|'] ++ literalHints cs ++ ['\n'] ++ lines indent (fun c => [c]) true cs

/-- The text of a scalar; a literal block or a broken line is indented as given. -/
def scalar (asKey : Bool) (indent : Nat) (s : String) : String :=
  String.ofList (scalarChars asKey indent s)

/-- A key that stands on one line with its value: of one line and at most 128 bytes. -/
def isSimpleKey (key : String) : Bool := !key.toList.any isBreak && key.utf8ByteSize ≤ 128

def padding (indent : Nat) : String := String.ofList (blanks indent)

/-- Ends a line, unless a block of lines has ended it. -/
def ended (s : String) : String := if Text.endsWith "\n" s then s else s ++ "\n"

/-- The text of a value without parts. -/
def leaf (indent : Nat) : Json → String
  | .null => "null"
  | .bool true => "true"
  | .bool false => "false"
  | .int n => toString n
  | .float x => x.render ""
  | .str s => scalar false indent s
  | .arr _ => "[]"
  | .obj _ => "\x7b\x7d"

/-- What a value follows: nothing, a key on its line, or an indicator `-`, `?` or `:`. -/
inductive Place
  | start
  | key
  | indicator

/-- The column at which the parts of a value start. A list under a key is not indented. -/
def Place.column (indent : Nat) (isList : Bool) : Place → Nat
  | .start => indent
  | .key => if isList then indent else indent + 2
  | .indicator => indent + 2

/-- What stands between a place and the first part of a value. -/
def Place.opening (column : Nat) : Place → String
  | .start => ""
  | .key => "\n" ++ padding column
  | .indicator => " "

/-- A value without parts, at the end of its line. -/
def Place.inline (p : Place) (text : String) : String :=
  match p with
  | .start => ended text
  | _ => " " ++ ended text

def keyText (indent : Nat) (key : String) : String :=
  if isSimpleKey key then scalar true indent key ++ ":"
  else "? " ++ ended (scalar false (indent + 2) key) ++ padding indent ++ ":"

def keyPlace (key : String) : Place := if isSimpleKey key then .key else .indicator

mutual

/-- The text of a value at a place within a block at column `indent`. -/
def value (p : Place) (indent : Nat) : Json → String
  | .arr list =>
    if list.isEmpty then p.inline "[]"
    else p.opening (p.column indent true) ++ items (p.column indent true) true list
  | .obj list =>
    if list.isEmpty then p.inline "\x7b\x7d"
    else p.opening (p.column indent false) ++ fields (p.column indent false) true list
  | j => p.inline (leaf (indent + 2) j)

/-- The items of a list; the first one stands where its block starts. -/
def items (indent : Nat) (first : Bool) : List Json → String
  | [] => ""
  | j :: rest =>
    (if first then "-" else padding indent ++ "-") ++ value .indicator indent j ++
      items indent false rest

def fields (indent : Nat) (first : Bool) : List (String × Json) → String
  | [] => ""
  | (key, j) :: rest =>
    (if first then "" else padding indent) ++ keyText indent key ++ value (keyPlace key) indent j ++
      fields indent false rest

end

end Writing

/-- The YAML text of a value. -/
def write (j : Json) : String := Writing.value .start 0 j

end ResourceModels.Yaml
