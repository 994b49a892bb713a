/-!
Text as lists of characters. Splitting, replacing and stripping are stated on `List Char` by
recursion on the text, and lifted to `String` once, so that what they keep and what they drop can
be read off the lists.
-/

namespace ResourceModels.Text

/-- The pieces between the characters that `isMark` selects, empty pieces included. -/
def splitList (isMark : Char → Bool) : List Char → List (List Char)
  | [] => [[]]
  | c :: rest =>
    if isMark c then [] :: splitList isMark rest
    else match splitList isMark rest with
      | [] => [[c]]
      | piece :: pieces => (c :: piece) :: pieces

def split (isMark : Char → Bool) (s : String) : List String :=
  (splitList isMark s.toList).map String.ofList

/-- The pieces with `mark` between each two neighbours. -/
def join (mark : String) : List String → String
  | [] => ""
  | [piece] => piece
  | piece :: rest => piece ++ mark ++ join mark rest

/-- What follows `start`, if the text begins with it. -/
def after? (start s : String) : Option String :=
  (start.toList.isPrefixOf? s.toList).map String.ofList

/-- What precedes `tail`, if the text ends with it. -/
def before? (tail s : String) : Option String :=
  (tail.toList.reverse.isPrefixOf? s.toList.reverse).map fun rest => String.ofList rest.reverse

def startsWith (start s : String) : Bool := start.toList.isPrefixOf s.toList

def endsWith (tail s : String) : Bool := tail.toList.isSuffixOf s.toList

/-- What is left after every leading occurrence of `start` is taken away. -/
def afterAll (start : List Char) : Nat → List Char → List Char
  | 0, s => s
  | fuel + 1, s =>
    match start.isPrefixOf? s with
    | some rest => afterAll start fuel rest
    | none => s

/-- Drops `start` from the front as often as it stands there. -/
def trimStart (start s : String) : String :=
  String.ofList (afterAll start.toList s.length s.toList)

/-- Drops the character `c` from the end as often as it stands there. -/
def trimEndChar (c : Char) (s : String) : String :=
  String.ofList (s.toList.reverse.dropWhile (· == c)).reverse

/-- Replaces the occurrences of `old`, found from left to right without overlap. The counter says
how many characters of a found occurrence are still to be passed over. -/
def replaceList (old new : List Char) : Nat → List Char → List Char
  | _, [] => []
  | skip + 1, _ :: rest => replaceList old new skip rest
  | 0, c :: rest =>
    if old.isPrefixOf (c :: rest) then new ++ replaceList old new (old.length - 1) rest
    else c :: replaceList old new 0 rest

/-- Replaces every occurrence of a non-empty text `old` by `new`. -/
def replace (old new s : String) : String :=
  String.ofList (replaceList old.toList new.toList 0 s.toList)

/-- Whether `part` stands somewhere in the text. -/
def containsList (part : List Char) : List Char → Bool
  | [] => part.isEmpty
  | c :: rest => part.isPrefixOf (c :: rest) || containsList part rest

def contains (part s : String) : Bool := containsList part.toList s.toList

/-- The text before the last `mark` and the text after it, if `mark` occurs. -/
def splitLast? (mark : Char) (s : String) : Option (String × String) :=
  match s.toList.reverse.span (· != mark) with
  | (_, []) => none
  | (last, _ :: before) => some (String.ofList before.reverse, String.ofList last.reverse)

/-- The text before the first `mark` and the text after it, if `mark` occurs. -/
def splitFirst? (mark : Char) (s : String) : Option (String × String) :=
  match s.toList.span (· != mark) with
  | (_, []) => none
  | (first, _ :: rest) => some (String.ofList first, String.ofList rest)

/-- Folds the letters `A` to `Z` to small letters and keeps all else. -/
def lowerAscii (s : String) : String := String.ofList (s.toList.map Char.toLower)

/-- The bytes of a text, and the text of bytes when they encode one. -/
def encode (s : String) : ByteArray := s.toUTF8

def decode? (bytes : ByteArray) : Option String := String.fromUTF8? bytes

theorem decode?_encode (s : String) : decode? (encode s) = some s := by
  simp only [decode?, encode, String.fromUTF8?, String.toUTF8_eq_toByteArray, dif_pos s.isValidUTF8]
  rfl

theorem splitList_ne_nil (isMark : Char → Bool) (s : List Char) : splitList isMark s ≠ [] := by
  cases s with
  | nil => simp [splitList]
  | cons c rest => simp only [splitList]; split <;> (try split) <;> simp

end ResourceModels.Text
