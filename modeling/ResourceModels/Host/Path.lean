import ResourceModels.Text

/-!
Paths of the machine, as text. They are joined as they are written; nothing is normalized.
-/

namespace ResourceModels.HostPath

def isAbsolute (path : String) : Bool := Text.startsWith "/" path

/-- A path read from a directory: an absolute one stands for itself. -/
def join (base path : String) : String :=
  if isAbsolute path ∨ base = "" then path
  else if Text.endsWith "/" base then base ++ path
  else base ++ "/" ++ path

/-- The text before the last separator, without separators at its end; the root for a path right
below it. -/
def parent (path : String) : String :=
  match Text.splitLast? '/' (Text.trimEndChar '/' path) with
  | some (dir, _) =>
    let dir := Text.trimEndChar '/' dir
    if dir = "" then "/" else dir
  | none => ""

/-- Whether a segment leads nowhere. -/
def isIdle (segment : String) : Bool := segment = "" || segment = "."

/-- The segments that follow some others, which are matched without idle ones. -/
def segmentsBelow? : List String → List String → Option (List String)
  | [], path => some path
  | s :: start, path =>
    match path.dropWhile isIdle with
    | p :: path => if s = p then segmentsBelow? start path else none
    | [] => none

/-- What is left of an absolute path below another one, without idle segments around it. -/
def below? (path start : String) : Option String :=
  let segments (s : String) := Text.split (· = '/') s
  (segmentsBelow? ((segments start).filter fun s => !isIdle s) (segments path)).map fun rest =>
    Text.join "/" ((rest.dropWhile isIdle).reverse.dropWhile isIdle).reverse

end ResourceModels.HostPath
