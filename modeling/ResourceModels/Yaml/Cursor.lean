/-!
A place in a text: the characters that are left, their position, and the classes of characters that
YAML text is made of.
-/

namespace ResourceModels.Yaml

/-- `offset` is the number of bytes before the place; `column` counts the characters of its line. -/
structure Cursor where
  rest : List Char
  offset : Nat
  line : Nat
  column : Nat

def isBlank (c : Char) : Bool := c = ' ' || c = '\t'

def isBreak (c : Char) : Bool :=
  c = '\n' || c = '\r' || c = '\u0085' || c = '\u2028' || c = '\u2029'

def isSpace (c : Char) : Bool := isBlank c || isBreak c

/-- The characters of names of anchors and of handles of tags. -/
def isWord (c : Char) : Bool := c.isAlphanum || c = '_' || c = '-'

/-- The characters that may stand in a text at all. -/
def isAllowed (c : Char) : Bool :=
  let n := c.toNat
  n = 0x09 || n = 0x0A || n = 0x0D || (0x20 ≤ n && n ≤ 0x7E) || n = 0x85 ||
    (0xA0 ≤ n && n ≤ 0xD7FF) || (0xE000 ≤ n && n ≤ 0xFFFD) || 0x10000 ≤ n

/-- A text is looked through in blocks of so many bytes. -/
def blockSize : Nat := 16384

/-- How many characters stand before the first block that holds one which may not stand in a text.
The block at hand comes after `before` characters and has `count` characters and `size` bytes so
far; a character that does not fit into it starts the next one. -/
def readable (before count size : Nat) : List Char → Nat
  | [] => before + count
  | c :: rest =>
    let (before, count, size) :=
      if blockSize < size + c.utf8Size then (before + count, 0, 0) else (before, count, size)
    if isAllowed c then readable before (count + 1) (size + c.utf8Size) rest else before

/-- Whether the text is at an end or a blank or break follows. -/
def atGap : List Char → Bool
  | [] => true
  | c :: _ => isSpace c

/-- Whether three equal characters stand alone at the front: `---` or `...`. -/
def isMark (c : Char) : List Char → Bool
  | a :: b :: d :: rest => a = c && b = c && d = c && atGap rest
  | _ => false

namespace Cursor

def start (text : List Char) : Cursor := ⟨text, 0, 0, 0⟩

/-- How many bytes characters take. -/
def width (s : List Char) : Nat := s.foldl (fun n c => n + c.utf8Size) 0

/-- Passes over characters of one line. -/
def skip (c : Cursor) (n : Nat) : Cursor :=
  ⟨c.rest.drop n, c.offset + width (c.rest.take n), c.line, c.column + n⟩

/-- Passes over a line break, if one follows, and says what it is read as. -/
def readBreak (c : Cursor) : List Char × Cursor :=
  match c.rest with
  | '\r' :: '\n' :: rest => (['\n'], ⟨rest, c.offset + 2, c.line + 1, 0⟩)
  | b :: rest =>
    let next : Cursor := ⟨rest, c.offset + b.utf8Size, c.line + 1, 0⟩
    if b = '\u2028' ∨ b = '\u2029' then ([b], next)
    else if isBreak b then (['\n'], next)
    else ([], c)
  | [] => ([], c)

/-- Passes over the characters of a class. -/
def skipWhile (p : Char → Bool) (c : Cursor) : Cursor := c.skip (c.rest.takeWhile p).length

/-- Passes over the rest of a line. -/
def skipLine (c : Cursor) : Cursor := c.skipWhile (!isBreak ·)

/-- Whether a document mark stands at the start of a line here. -/
def atDocumentMark (c : Cursor) : Bool :=
  c.column = 0 && (isMark '-' c.rest || isMark '.' c.rest)

def startsWith (c : Cursor) (p : Char → Bool) : Bool :=
  match c.rest with
  | d :: _ => p d
  | [] => false

/-- Whether the character after the next one belongs to a class; an end does not. -/
def secondIs (c : Cursor) (p : Char → Bool) : Bool :=
  match c.rest with
  | _ :: d :: _ => p d
  | _ => false

end Cursor

end ResourceModels.Yaml
