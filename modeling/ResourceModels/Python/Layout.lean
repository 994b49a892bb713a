import ResourceModels.Layout
import ResourceModels.Text.Blank

/-!
Where Python models belong. The generator leaves a package for every document, each with its own
copy of the shared models. The packages are merged: shared models are taken once, and every other
module goes into a directory named after its kind.
-/

/-!
## Imports of modules

Relative imports of Python modules. A module that moves to another depth reaches the package root by
another number of dots; only imports of the shared models are changed.
-/

namespace ResourceModels.Python

/-- Whether a dotted module, with what follows it on its line, lies in a package. -/
def isIn (package : String) (module : List Char) : Bool :=
  match package.toList.isPrefixOf? module with
  | some [] => true
  | some (c :: _) => c = '.' || c = ' '
  | none => false

/-- How many dots an import needs that is written with `dotted` dots in front or without, if it is
one of the shared models. `depth` dots reach the package root. -/
def dots? (depth : Nat) (dotted : Bool) (module : List Char) : Option Nat :=
  if isIn "io.k8s" module then some depth
  else if isIn "k8s" module then some (depth - 1)
  else if dotted && isIn "apimachinery" module then some (depth - 2)
  else none

/-- A line with its import anchored anew; all other lines stay as they are. -/
def anchorList (depth : Nat) (line : List Char) : List Char :=
  match "from ".toList.isPrefixOf? (line.dropWhile Text.isBlank) with
  | none => line
  | some target =>
    let module := target.dropWhile (· = '.')
    match dots? depth (target.head? == some '.') module with
    | none => line
    | some n => line.takeWhile Text.isBlank ++ "from ".toList ++ List.replicate n '.' ++ module

def anchorLine (depth : Nat) (line : String) : String :=
  String.ofList (anchorList depth line.toList)

/-- A module with all its imports anchored anew. -/
def anchor (depth : Nat) (source : String) : String :=
  Text.join "\n" ((Text.split (· = '\n') source).map (anchorLine depth))

end ResourceModels.Python

/-! ## Places of modules -/

namespace ResourceModels.Python

def marker : String := "__init__.py"

/-- Where a module of a package for a kind belongs, if there is a place for it. A module in a
directory of the kind stays there. -/
def relocated? (module kind : String) : Option String :=
  let dir := Path.parent module
  if dir = "" ∨ Path.fileName module = marker then none
  else if Path.fileName dir = kind then some module
  else some (Path.join (Path.join dir kind) (Path.fileName module))

/-- How many dots climb from a module to the package root. -/
def climb (module : String) : Nat :=
  let dir := Path.parent module
  if dir = "" then 1 else (Text.split (· = '/') dir).length + 1

def kindOf (package : String) : String :=
  match Text.splitLast? '_' package with
  | some (_, kind) => kind
  | none => package

def isShared (module : String) : Bool := Text.startsWith "io/k8s/apimachinery/" module

section

variable {σ : Type} [FileStore σ]

/-- Where a module goes; a module that is moved to another depth comes with the number of its
dots. -/
def destination? (files : σ) (target module kind : String) : Option (String × Option Nat) :=
  if isShared module then
    let path := Path.join target module
    if FileStore.isFile files path then none else some (path, none)
  else (relocated? module kind).map fun path => (Path.join target path, some (climb path))

def contents (files : σ) (file path : String) : Option Nat → Except FileError ByteArray
  | some depth =>
    if Text.endsWith ".py" path then
      (FileStore.readText files file).map fun text => Text.encode (anchor depth text)
    else FileStore.read files file
  | none => FileStore.read files file

def moveFile (source target : String) (files : σ) (file : String) : Except LayoutError σ :=
  match (Path.below? file source).bind (Text.splitFirst? '/') with
  | none => .ok files
  | some (package, module) =>
    match destination? files target module (kindOf package) with
    | none => .ok files
    | some (path, depth) => do
      let bytes ← (contents files file path depth).mapError (.move file)
      (FileStore.write files path bytes).mapError (.move path)

def mark (files : σ) (dir : String) : Except LayoutError σ :=
  let path := Path.join dir marker
  if FileStore.isFile files path then .ok files
  else (FileStore.write files path .empty).mapError .file

def packages (files : σ) (target : String) : List String :=
  (FileStore.dirs files).filter fun dir => dir = target || Path.isBelow dir target

/-- Lays out below `target` what the generator left below `source`. -/
def arrange (files : σ) (source target : String) : Except LayoutError σ := do
  let modules ← (FileStore.filesUnder files source).mapError .file
  let files ← modules.foldlM (moveFile source target) files
  (packages files target).foldlM mark files

end

end ResourceModels.Python
