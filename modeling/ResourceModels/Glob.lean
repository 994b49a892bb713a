/-!
Path patterns. `*` stands for any run of characters other than `/`, `?` for one of them, `[...]`
for one out of a set, and `**` for any number of whole segments. A pattern is a list of tokens, and
matching recurses on that list: what a token can leave of a path is a list of suffixes.
-/

namespace ResourceModels.Glob

inductive Range
  | single (c : Char)
  | between (first last : Char)
deriving DecidableEq, Repr

inductive Token
  | char (c : Char)
  | any
  | anyRun
  | anySegments
  | within (ranges : List Range)
  | without (ranges : List Range)
deriving DecidableEq, Repr

abbrev Pattern := List Token

inductive Fault
  | wildcards
  | recursiveWildcards
  | invalidRange
deriving DecidableEq, Repr

structure Error where
  position : Nat
  fault : Fault
deriving DecidableEq, Repr

def Fault.message : Fault → String
  | .wildcards => "wildcards are either regular `*` or recursive `**`"
  | .recursiveWildcards => "recursive wildcards must form a single path component"
  | .invalidRange => "invalid range pattern"

def Error.message (e : Error) : String :=
  "Pattern syntax error near position " ++ toString e.position ++ ": " ++ e.fault.message

/-- The ranges between the brackets: three characters `a-z` span, any other stands for itself. -/
def ranges : List Char → List Range
  | a :: '-' :: z :: rest => .between a z :: ranges rest
  | c :: rest => .single c :: ranges rest
  | [] => []

/-- Splits at the first `]` that is not the first character. -/
def bracket? : List Char → Option (List Char × List Char)
  | [] => none
  | c :: rest =>
    match rest.span (· != ']') with
    | (_, []) => none
    | (body, _ :: after) => some (c :: body, after)

def stars (s : List Char) : Nat := (s.takeWhile (· == '*')).length

/-- A run of two stars must be a whole segment; its `/` belongs to it. `atStart` says whether the
run begins a segment, `position` where it stands. -/
def segmentRun (position : Nat) (atStart : Bool) (rest : List Char) : Except Error (List Char) :=
  if atStart then
    match rest with
    | [] => .ok []
    | '/' :: rest => .ok rest
    | _ => .error ⟨position + 2, .recursiveWildcards⟩
  else .error ⟨position - 1, .recursiveWildcards⟩

/-- Reads the tokens from `position` on. `atStart` says whether the text before ends a segment. The
fuel is the number of characters left. -/
def tokens : Nat → Nat → Bool → List Char → Except Error Pattern
  | 0, _, _, _ => .ok []
  | _ + 1, _, _, [] => .ok []
  | fuel + 1, position, _, '?' :: rest =>
    return .any :: (← tokens fuel (position + 1) false rest)
  | fuel + 1, position, atStart, '*' :: rest =>
    match stars rest with
    | 0 => return .anyRun :: (← tokens fuel (position + 1) false rest)
    | 1 => do
      let left ← segmentRun position atStart (rest.drop 1)
      return .anySegments :: (← tokens fuel (position + rest.length + 1 - left.length) true left)
    | _ => .error ⟨position + 2, .wildcards⟩
  | fuel + 1, position, _, '[' :: '!' :: rest =>
    match bracket? rest with
    | some (body, left) =>
      return .without (ranges body) ::
        (← tokens fuel (position + rest.length + 2 - left.length) false left)
    | none => .error ⟨position, .invalidRange⟩
  | fuel + 1, position, _, '[' :: rest =>
    match bracket? rest with
    | some (body, left) =>
      return .within (ranges body) ::
        (← tokens fuel (position + rest.length + 1 - left.length) false left)
    | none => .error ⟨position, .invalidRange⟩
  | fuel + 1, position, _, c :: rest =>
    return .char c :: (← tokens fuel (position + 1) (c == '/') rest)

def parse (pattern : String) : Except Error Pattern :=
  tokens pattern.length 0 true pattern.toList

def Range.holds (c : Char) : Range → Bool
  | .single a => c == a
  | .between a z => a ≤ c && c ≤ z

/-- Whether a token that stands for one character can stand for `c`. -/
def Token.accepts (c : Char) : Token → Bool
  | .char a => c == a
  | .any => c != '/'
  | .within ranges => c != '/' && ranges.any (Range.holds c)
  | .without ranges => c != '/' && !ranges.any (Range.holds c)
  | .anyRun | .anySegments => false

/-- What can be left of a text after a run without `/`. -/
def afterRun : List Char → List (List Char)
  | [] => [[]]
  | c :: rest => (c :: rest) :: if c = '/' then [] else afterRun rest

/-- What follows each `/`, and the end of the text. -/
def afterSlashes : List Char → List (List Char)
  | [] => [[]]
  | c :: rest => if c = '/' then rest :: afterSlashes rest else afterSlashes rest

def matchesList : Pattern → List Char → Bool
  | [], s => s.isEmpty
  | .anyRun :: pattern, s => (afterRun s).any (matchesList pattern)
  | .anySegments :: pattern, s => (s :: afterSlashes s).any (matchesList pattern)
  | _ :: _, [] => false
  | token :: pattern, c :: rest => token.accepts c && matchesList pattern rest

def Pattern.matches (pattern : Pattern) (path : String) : Bool := matchesList pattern path.toList

end ResourceModels.Glob
