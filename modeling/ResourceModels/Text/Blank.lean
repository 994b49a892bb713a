import ResourceModels.Text

/-!
White space around texts, and the lines of a text.
-/

namespace ResourceModels.Text

/-- The characters of the property White_Space. -/
def isBlank (c : Char) : Bool :=
  let n := c.toNat
  (9 ≤ n && n ≤ 13) || n = 0x20 || n = 0x85 || n = 0xA0 || n = 0x1680 ||
    (0x2000 ≤ n && n ≤ 0x200A) || n = 0x2028 || n = 0x2029 || n = 0x202F || n = 0x205F || n = 0x3000

def dropEnd (p : Char → Bool) (s : List Char) : List Char := (s.reverse.dropWhile p).reverse

/-- The text without the white space that ends it. -/
def trimEnd (s : String) : String := String.ofList (dropEnd isBlank s.toList)

/-- The text without the white space around it. -/
def trim (s : String) : String := String.ofList (dropEnd isBlank (s.toList.dropWhile isBlank))

def withoutReturn (line : String) : String := (before? "\r" line).getD line

/-- The lines of a text. A line ends with a line feed, or with a carriage return and a line feed;
what follows the last line feed is a line only if it is not empty. -/
def lines (s : String) : List String :=
  let pieces := split (· = '\n') s
  pieces.dropLast.map withoutReturn ++ pieces.getLast?.toList.filter (· ≠ "")

/-- The text of some lines, each ended by a line feed. -/
def ofLines (lines : List String) : String := String.join (lines.map (· ++ "\n"))

end ResourceModels.Text
