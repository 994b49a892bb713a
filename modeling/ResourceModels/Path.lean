import ResourceModels.Text

/-!
Relative paths. A path in normal form is a list of segments joined by `/`, none of them empty, `.`
or `..`; the empty path is the root. `normalize?` brings any path to that form and refuses one whose
`..` segments climb above the root.
-/

namespace ResourceModels.Path

def isSeparator (c : Char) : Bool := c = '/' || c = '\\'

/-- The pieces between separators, empty ones included. -/
def segments (path : String) : List String := Text.split isSeparator path

/-- The segments that remain when `.` and empty segments go and each `..` takes back the segment
before it. `kept` holds the remaining segments so far, innermost first. -/
def resolve (kept : List String) : List String → Option (List String)
  | [] => some kept.reverse
  | segment :: rest =>
    if segment = "" ∨ segment = "." then resolve kept rest
    else if segment = ".." then
      match kept with
      | [] => none
      | _ :: outer => resolve outer rest
    else resolve (segment :: kept) rest

/-- The normal form, unless the path climbs above the root. -/
def normalize? (path : String) : Option String :=
  (resolve [] (segments path)).map (Text.join "/")

/-- Joins two paths in normal form. -/
def join (base rest : String) : String :=
  if base = "" then rest else if rest = "" then base else base ++ "/" ++ rest

/-- The directory that holds a path in normal form, the root for an outermost one. -/
def parent (path : String) : String :=
  match Text.splitLast? '/' path with
  | some (dir, _) => dir
  | none => ""

/-- The last segment of a path in normal form. -/
def fileName (path : String) : String :=
  match Text.splitLast? '/' path with
  | some (_, name) => name
  | none => path

/-- The rest of a path below a directory, if it lies there. -/
def below? (path dir : String) : Option String :=
  if dir = "" then some path else Text.after? (dir ++ "/") path

def isBelow (path dir : String) : Bool := (below? path dir).isSome

/-- The text before each `/`, the shortest first. `before` is the text passed so far, backwards. -/
def ancestorsFrom (before : List Char) : List Char → List String
  | [] => []
  | c :: rest =>
    if c = '/' then String.ofList before.reverse :: ancestorsFrom (c :: before) rest
    else ancestorsFrom (c :: before) rest

/-- The directories that hold a file, outermost first. -/
def ancestors (path : String) : List String := ancestorsFrom [] path.toList

end ResourceModels.Path
