import ResourceModels.Yaml.Scalar

/-!
The tokens of a YAML text. Blocks are opened and closed by indentation, and a colon turns what
stands before it on its line into a key. A list of tokens that goes wrong ends without `streamEnd`,
before the first token that might still have become a key.
-/

namespace ResourceModels.Yaml

/-- How a scalar stands in the text; a quoted one has either kind of quotes. -/
inductive ScalarStyle
  | plain
  | quoted
  | literal
  | folded
deriving DecidableEq, Repr

/-- The suffix of a tag and the start that a handle stands for are texts of bytes. -/
inductive Token
  | version (major minor : Nat)
  | tagHandle (handle : String) (start : List UInt8)
  | documentStart
  | documentEnd
  | blockSeqStart
  | blockMapStart
  | blockEnd
  | flowSeqStart
  | flowSeqEnd
  | flowMapStart
  | flowMapEnd
  | blockEntry
  | flowEntry
  | key
  | value
  | alias (name : String)
  | anchor (name : String)
  | tag (handle : String) (suffix : List UInt8)
  | scalar (style : ScalarStyle) (text : String)
  | streamEnd
deriving DecidableEq, Repr

/-- A place where a key may have started: the number of tokens before it, and whether the block
needs a key there. -/
structure KeyStart where
  count : Nat
  offset : Nat
  line : Nat
  column : Nat
  required : Bool

/-- The state of the reader between two tokens. `tokens` are those read so far, backwards; `keys`
holds for each open flow collection, and the block around them, where a key may have started. -/
structure Scan where
  cursor : Cursor
  tokens : List Token
  count : Nat
  indent : Int
  outer : List Int
  keyAllowed : Bool
  key : Option KeyStart
  keys : List (Option KeyStart)

namespace Scan

def start (text : List Char) : Scan := ⟨.start text, [], 0, -1, [], true, none, []⟩

def inFlow (s : Scan) : Bool := !s.keys.isEmpty

def emit (s : Scan) (t : Token) : Scan := { s with tokens := t :: s.tokens, count := s.count + 1 }

/-- Puts a token in front of the tokens from number `at_` on. -/
def emitAt (s : Scan) (at_ : Nat) (t : Token) : Scan :=
  let after := s.count - at_
  { s with
    tokens := s.tokens.take after ++ t :: s.tokens.drop after
    count := s.count + 1 }

def move (s : Scan) (c : Cursor) : Scan := { s with cursor := c }

def skip (s : Scan) (n : Nat) : Scan := s.move (s.cursor.skip n)

def allowKey (s : Scan) (b : Bool) : Scan := { s with keyAllowed := b }

/-- Closes the blocks that are indented deeper than a column. -/
def closeTo (column : Int) : List Int → Scan → Scan
  | [], s => s
  | i :: outer, s =>
    if column < s.indent then
      closeTo column outer { s.emit .blockEnd with indent := i, outer := outer }
    else s

def unroll (s : Scan) (column : Int) : Scan := if s.inFlow then s else closeTo column s.outer s

/-- Opens a block at a column deeper than the block around it; `place` is the number of tokens
before it. -/
def roll (s : Scan) (column place : Nat) (t : Token) : Scan :=
  if s.inFlow ∨ column ≤ s.indent then s
  else { s.emitAt place t with indent := column, outer := s.indent :: s.outer }

/-- Forgets where a key may have started; a needed key must not be forgotten. -/
def dropKey (s : Scan) : Option Scan :=
  match s.key with
  | some k => if k.required then none else some { s with key := none }
  | none => some s

/-- Notes that a key may start here. -/
def noteKey (s : Scan) : Option Scan :=
  if s.keyAllowed then do
    let s' ← s.dropKey
    let c := s.cursor
    return { s' with
      key := some ⟨s.count, c.offset, c.line, c.column, !s.inFlow && s.indent = c.column⟩ }
  else some s

/-- Whether a key that started there can still end: on the same line, within 1024 bytes. -/
def isFresh (c : Cursor) (k : KeyStart) : Bool := c.line ≤ k.line && c.offset ≤ k.offset + 1024

def freshKey? (c : Cursor) : Option KeyStart → Option (Option KeyStart)
  | some k => if isFresh c k then some (some k) else if k.required then none else some none
  | none => some none

/-- Forgets the keys that can no longer end. -/
def dropStale (s : Scan) : Option Scan := do
  let keys ← s.keys.reverse.mapM (freshKey? s.cursor)
  let key ← freshKey? s.cursor s.key
  return { s with key := key, keys := keys.reverse }

/-- The tokens before the first one that may still become a key. -/
def settled (s : Scan) : List Token :=
  let open_ := (s.key :: s.keys).filterMap fun k => k.filter (isFresh s.cursor)
  s.tokens.reverse.take (open_.foldl (fun n k => min n k.count) s.count)

/-- Passes over blanks, comments and line breaks. In a block a tab is no blank where a key may
start, and a line break lets one start. A byte order mark may stand at the start of a line. -/
def toNext : Nat → Scan → Scan
  | 0, s => s
  | fuel + 1, s =>
    let c := s.cursor
    let c := if c.column = 0 && c.startsWith (· = '\ufeff') then c.skip 1 else c
    let c := c.skipWhile fun d => d = ' ' || ((s.inFlow || !s.keyAllowed) && d = '\t')
    let c := if c.startsWith (· = '#') then c.skipLine else c
    if c.startsWith isBreak then
      let s := s.move c.readBreak.2
      toNext fuel (if s.inFlow then s else s.allowKey true)
    else s.move c

def openFlow (s : Scan) (t : Token) : Option Scan := do
  let s ← s.noteKey
  return ({ s with key := none, keys := s.key :: s.keys }.allowKey true).skip 1 |>.emit t

def closeFlow (s : Scan) (t : Token) : Option Scan := do
  let s ← s.dropKey
  let s := match s.keys with
    | key :: keys => { s with key := key, keys := keys }
    | [] => s
  return ((s.allowKey false).skip 1).emit t

/-- An indicator that needs a place where a key may start, and opens a block there. -/
def openBlock (s : Scan) (t : Token) : Option Scan :=
  if s.inFlow then some s
  else if s.keyAllowed then some (s.roll s.cursor.column s.count t)
  else none

def blockEntry (s : Scan) : Option Scan := do
  let s ← s.openBlock .blockSeqStart
  let s ← s.dropKey
  return ((s.allowKey true).skip 1).emit .blockEntry

def explicitKey (s : Scan) : Option Scan := do
  let s ← s.openBlock .blockMapStart
  let s ← s.dropKey
  return ((s.allowKey !s.inFlow).skip 1).emit .key

/-- A colon makes a key of what may have started one. -/
def value (s : Scan) : Option Scan :=
  match s.key with
  | some k =>
    let s := (s.emitAt k.count .key).roll k.column k.count .blockMapStart
    some ((({ s with key := none }.allowKey false).skip 1).emit .value)
  | none => do
    let s ← s.openBlock .blockMapStart
    return ((s.allowKey !s.inFlow).skip 1).emit .value

/-- A name after `*` or `&`. -/
def name (s : Scan) (t : String → Token) : Option Scan := do
  let s ← s.noteKey
  let c := s.cursor.skip 1
  let word := c.rest.takeWhile isWord
  let c := c.skip word.length
  let ends := atGap c.rest || c.startsWith fun d =>
    d = '?' || d = ':' || d = ',' || d = ']' || d = '\x7d' || d = '%' || d = '@' || d = '`'
  if word.isEmpty || !ends then none
  else return ((s.allowKey false).move c).emit (t (String.ofList word))

end Scan

/-- The characters of a tag; some of them only where the tag is written out in full. -/
def isTagChar (full : Bool) (c : Char) : Bool :=
  isWord c || c ∈ [';', '/', '?', ':', '@', '&', '=', '+', '$', '.', '%', '!', '~', '*', '\'', '(',
    ')'] || (full && (c = ',' || c = '[' || c = ']'))

/-- How many bytes follow the first one of a character. -/
def trailing? (byte : Nat) : Option Nat :=
  if byte < 0x80 then some 0
  else if 0xC0 ≤ byte ∧ byte < 0xE0 then some 1
  else if 0xE0 ≤ byte ∧ byte < 0xF0 then some 2
  else if 0xF0 ≤ byte ∧ byte < 0xF8 then some 3
  else none

/-- The bytes of a tag, with `%` and two hexadecimal digits for a byte. Of the bytes of a character
either all or none are written so; `left` of them are still to come. -/
def tagBytes? : Nat → List Char → Option (List UInt8)
  | left, '%' :: a :: b :: rest => do
    let byte := (← hexValue? a) * 16 + (← hexValue? b)
    let left ← match left with
      | 0 => trailing? byte
      | left + 1 => if 0x80 ≤ byte ∧ byte < 0xC0 then some left else none
    return byte.toUInt8 :: (← tagBytes? left rest)
  | 0, [] => some []
  | 0, c :: rest => if c = '%' then none else do return c.toNat.toUInt8 :: (← tagBytes? 0 rest)
  | _ + 1, _ => none

/-- The text of a part of a tag, which a zero byte ends. -/
def tagText? (s : List Char) : Option (List UInt8) := do
  return (← tagBytes? 0 s).takeWhile (· ≠ 0)

/-- `!`, or a word between two exclamation marks, or the part of it that stands here. -/
def tagHandle? (c : Cursor) : Option (List Char × Cursor) :=
  if c.startsWith (· = '!') then
    let word := (c.rest.drop 1).takeWhile isWord
    let c := c.skip (word.length + 1)
    if c.startsWith (· = '!') then some ('!' :: (word ++ ['!']), c.skip 1)
    else some ('!' :: word, c)
  else none

/-- A tag that starts here, as its handle and the rest. -/
def tag? (c : Cursor) : Option (String × List UInt8 × Cursor) :=
  if c.secondIs (· = '<') then do
    let c := c.skip 2
    let body := c.rest.takeWhile (isTagChar true)
    let c := c.skip body.length
    if body.isEmpty || !c.startsWith (· = '>') then none
    else return ("", ← tagText? body, c.skip 1)
  else do
    let (handle, c) ← tagHandle? c
    let body := c.rest.takeWhile (isTagChar false)
    let next := c.skip body.length
    if 1 < handle.length ∧ handle.getLast? = some '!' then
      if body.isEmpty then none else return (String.ofList handle, ← tagText? body, next)
    else
      let suffix ← tagText? (handle.drop 1 ++ body)
      return if suffix.isEmpty then ("", [0x21], next) else ("!", suffix, next)

namespace Scan

def tag (s : Scan) : Option Scan := do
  let s ← s.noteKey
  let (handle, suffix, c) ← tag? s.cursor
  if atGap c.rest || (s.inFlow && c.startsWith (· = ',')) then
    return ((s.allowKey false).move c).emit (.tag handle suffix)
  else none

/-- A decimal number of at most nine digits. -/
def number? (c : Cursor) : Option (Nat × Cursor) :=
  let digits := c.rest.takeWhile Char.isDigit
  if digits.isEmpty || 9 < digits.length then none
  else some (digits.foldl (fun n d => n * 10 + (d.toNat - '0'.toNat)) 0, c.skip digits.length)

/-- A directive, which stands alone on its line. -/
def directive (s : Scan) : Option Scan := do
  let s ← (s.unroll (-1)).dropKey
  let c := s.cursor.skip 1
  let word := c.rest.takeWhile isWord
  let c := c.skip word.length
  if word.isEmpty || !atGap c.rest then none
  else
    let c := c.skipWhile isBlank
    let (t, c) ←
      if word = ['Y', 'A', 'M', 'L'] then do
        let (major, c) ← number? c
        if !c.startsWith (· = '.') then none
        else
          let (minor, c) ← number? (c.skip 1)
          some (Token.version major minor, c)
      else if word = ['T', 'A', 'G'] then do
        let (handle, c) ← tagHandle? c
        if handle ≠ ['!'] ∧ (handle.length = 1 ∨ handle.getLast? ≠ some '!') then none
        else if !c.startsWith isBlank then none
        else
          let c := c.skipWhile isBlank
          let body := c.rest.takeWhile (isTagChar true)
          let next := c.skip body.length
          if body.isEmpty || !atGap next.rest then none
          else some (Token.tagHandle (String.ofList handle) (← tagText? body), next)
      else none
    let c := c.skipWhile isBlank
    let c := if c.startsWith (· = '#') then c.skipLine else c
    if !c.rest.isEmpty && !c.startsWith isBreak then none
    else return ((s.allowKey false).move c.readBreak.2).emit t

def documentMark (s : Scan) (t : Token) : Option Scan := do
  let s ← (s.unroll (-1)).dropKey
  return ((s.allowKey false).skip 3).emit t

def plain (s : Scan) : Option Scan := do
  let s ← s.noteKey
  let p ← Yaml.plain s.inFlow (s.indent + 1).toNat s.cursor
  return ((s.allowKey p.broken).move p.next).emit (.scalar .plain (String.ofList p.text))

def quoted (s : Scan) (quote : Char) : Option Scan := do
  let s ← s.noteKey
  let (text, c) ← Yaml.quoted quote s.cursor
  return ((s.allowKey false).move c).emit (.scalar .quoted (String.ofList text))

def block (s : Scan) (literal : Bool) : Option Scan := do
  let s ← s.dropKey
  let (text, c) ← Yaml.block literal s.indent s.cursor
  let style := if literal then ScalarStyle.literal else .folded
  return ((s.allowKey true).move c).emit (.scalar style (String.ofList text))

/-- The characters that cannot start a plain scalar. -/
def isIndicator (c : Char) : Bool :=
  c ∈ ['-', '?', ':', ',', '[', ']', '\x7b', '\x7d', '#', '&', '*', '!', '|', '>', '\'', '"', '%',
    '@', '`']

/-- Reads the next token, which starts with the character `d`. -/
def next (s : Scan) (d : Char) : Option Scan :=
  let c := s.cursor
  let gapAfter := atGap (c.rest.drop 1)
  if c.column = 0 && d = '%' then s.directive
  else if c.column = 0 && isMark '-' c.rest then s.documentMark .documentStart
  else if c.column = 0 && isMark '.' c.rest then s.documentMark .documentEnd
  else if d = '[' then s.openFlow .flowSeqStart
  else if d = '\x7b' then s.openFlow .flowMapStart
  else if d = ']' then s.closeFlow .flowSeqEnd
  else if d = '\x7d' then s.closeFlow .flowMapEnd
  else if d = ',' then do
    let s ← s.dropKey
    return ((s.allowKey true).skip 1).emit .flowEntry
  else if d = '-' && gapAfter then s.blockEntry
  else if d = '?' && (s.inFlow || gapAfter) then s.explicitKey
  else if d = ':' && (s.inFlow || gapAfter) then s.value
  else if d = '*' then s.name .alias
  else if d = '&' then s.name .anchor
  else if d = '!' then s.tag
  else if d = '|' && !s.inFlow then s.block true
  else if d = '>' && !s.inFlow then s.block false
  else if d = '\'' || d = '"' then s.quoted d
  else if !(isSpace d || isIndicator d) || (d = '-' && !c.secondIs isBlank) ||
      (!s.inFlow && (d = '?' || d = ':')) then s.plain
  else none

/-- Reads token after token until the text ends or goes wrong. A text that is not `whole` goes wrong
where it ends: a token may not reach its end, nor start within its last three characters. -/
def run (whole : Bool) : Nat → Scan → List Token
  | 0, s => s.settled
  | fuel + 1, s =>
    match (toNext (s.cursor.rest.length + 1) s).dropStale with
    | none => s.settled
    | some next =>
      let next := next.unroll next.cursor.column
      if !whole && (next.cursor.rest.drop 3).isEmpty then s.settled
      else
        match next.cursor.rest with
        | [] =>
          match (next.unroll (-1)).dropKey with
          | some last => (last.emit .streamEnd).tokens.reverse
          | none => s.settled
        | d :: _ =>
          match next.next d with
          | some next =>
            if !whole && next.cursor.rest.isEmpty then s.settled else run whole fuel next
          | none => s.settled

end Scan

/-- The tokens of a text. They end before the block in which a character stands that may not stand
in any text. -/
def Token.scan (text : String) : List Token :=
  let all := text.toList
  let s := all.take (readable 0 0 0 all)
  Scan.run (s.length = all.length) (s.length + 2) (.start s)

end ResourceModels.Yaml
