import ResourceModels.Json
import ResourceModels.Text

/-!
The text of a JSON value: on one line without blanks, or spread over lines with two blanks for each
level. Quotes, backslashes and control characters are escaped and nothing else is.
-/

namespace ResourceModels.Json

def hexDigit (n : Nat) : Char := (Nat.digitChar n)

/-- How a character stands in a quoted text. -/
def escape (c : Char) : List Char :=
  if c = '"' then ['\\', '"']
  else if c = '\\' then ['\\', '\\']
  else if c = '\n' then ['\\', 'n']
  else if c = '\r' then ['\\', 'r']
  else if c = '\t' then ['\\', 't']
  else if c = '\x08' then ['\\', 'b']
  else if c = '\x0c' then ['\\', 'f']
  else if c.toNat < 0x20 then
    ['\\', 'u', '0', '0', hexDigit (c.toNat / 16), hexDigit (c.toNat % 16)]
  else [c]

def quote (s : String) : String := String.ofList ('"' :: (s.toList.flatMap escape ++ ['"']))

/-- The text of a value that holds no others. -/
def scalar : Json → String
  | .null => "null"
  | .bool true => "true"
  | .bool false => "false"
  | .int n => toString n
  | .float x => x.render "+"
  | .str s => quote s
  | .arr _ => "[]"
  | .obj _ => "\x7b\x7d"

mutual

def compact : Json → String
  | .arr items => "[" ++ Text.join "," (compactItems items) ++ "]"
  | .obj fields => "\x7b" ++ Text.join "," (compactFields fields) ++ "\x7d"
  | j => j.scalar

def compactItems : List Json → List String
  | [] => []
  | j :: rest => compact j :: compactItems rest

def compactFields : List (String × Json) → List String
  | [] => []
  | (key, j) :: rest => (quote key ++ ":" ++ compact j) :: compactFields rest

end

def indent (level : Nat) : String := String.ofList (List.replicate (2 * level) ' ')

/-- Entries on lines of their own, one level deeper than the brackets around them. -/
def block (level : Nat) (opening closing : String) (entries : List String) : String :=
  opening ++ "\n" ++ indent (level + 1) ++ Text.join (",\n" ++ indent (level + 1)) entries ++
    "\n" ++ indent level ++ closing

mutual

/-- The text over several lines, of a value that stands `level` levels deep. -/
def prettyAt (level : Nat) : Json → String
  | .arr (j :: items) => block level "[" "]" (prettyItems (level + 1) (j :: items))
  | .obj (f :: fields) => block level "\x7b" "\x7d" (prettyFields (level + 1) (f :: fields))
  | j => j.scalar

def prettyItems (level : Nat) : List Json → List String
  | [] => []
  | j :: rest => prettyAt level j :: prettyItems level rest

def prettyFields (level : Nat) : List (String × Json) → List String
  | [] => []
  | (key, j) :: rest => (quote key ++ ": " ++ prettyAt level j) :: prettyFields level rest

end

def pretty (j : Json) : String := prettyAt 0 j

end ResourceModels.Json
