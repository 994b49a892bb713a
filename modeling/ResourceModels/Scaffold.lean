import ResourceModels.FileTree
import ResourceModels.Scaffold.Templates
import ResourceModels.Language

/-!
New tests. A test is a directory with a valid label as its name; its files come from templates, in
which the name and the imports of the registered KCL models are filled in.
-/

namespace ResourceModels.Scaffold

def maxLength : Nat := 63

def isSmallLetter (c : Char) : Bool := 'a' ≤ c && c ≤ 'z'

def isSmallOrDigit (c : Char) : Bool := isSmallLetter c || c.isDigit

/-- Whether a text is a label but for its length: small letters, digits and hyphens, beginning with
a letter and ending with a letter or digit. -/
def isLabelList : List Char → Bool
  | [] => false
  | c :: rest =>
    isSmallLetter c && rest.all (fun d => isSmallOrDigit d || d = '-') &&
      (rest.getLast?.all isSmallOrDigit)

inductive NameProblem
  | tooLong
  | notLabel
deriving DecidableEq, Repr

def NameProblem.message : NameProblem → String
  | .tooLong => "must be no more than " ++ toString maxLength ++ " characters"
  | .notLabel =>
    "a DNS-1035 label must consist of lower case alphanumeric characters or '-', " ++
      "start with an alphabetic character, and end with an alphanumeric character"

def problems (name : String) : List NameProblem :=
  (if maxLength < name.utf8ByteSize then [.tooLong] else []) ++
    (if isLabelList name.toList then [] else [.notLabel])

inductive ScaffoldError
  | invalidName (name : String) (problems : List NameProblem)
  | missingTemplate (name : String)
  | notEmpty (dir : String)
  | link (path target : String) (cause : HostFault)
  | file (cause : FileError)

def ScaffoldError.message : ScaffoldError → String
  | .invalidName name problems =>
    "'" ++ name ++ "' is not a valid test name. DNS-1035 constraints: " ++
      Text.join "; " (problems.map NameProblem.message)
  | .missingTemplate name => "template " ++ name ++ " not found"
  | .notEmpty dir =>
    "the folder '" ++ dir ++ "' is not empty; pass --force to overwrite its contents"
  | .link path target cause =>
    "failed to link " ++ path ++ " to " ++ target ++ ": " ++ cause.message
  | .file cause => Fault.message cause

def ScaffoldError.causes : ScaffoldError → List String
  | .link _ _ cause => cause.message :: cause.causes
  | .file cause => Fault.causes cause
  | _ => []

def dirName (name : String) (endToEnd : Bool) : String :=
  (if endToEnd then "e2etest-" else "test-") ++ name

/-- The import of a package of registered models. -/
structure Import where
  path : String
  name : String
deriving DecidableEq, Repr

/-- The import of a directory, under the name that its last two segments give it. -/
def importOf? (dir : String) : Option Import :=
  match (Text.split (· = '/') dir).reverse with
  | last :: before :: rest =>
    let name := (before ++ last).toList.map fun c => if c = '-' then '_' else c
    some ⟨Text.join "." (last :: before :: rest).reverse, String.ofList name⟩
  | _ => none

/-- Keeps the first import of each name. -/
def distinct (taken : List String) : List Import → List Import
  | [] => []
  | i :: rest =>
    if i.name ∈ taken then distinct taken rest else i :: distinct (i.name :: taken) rest

/-- The imports of all directories below `models` that hold KCL files. -/
def imports {σ : Type} [FileStore σ] (models : σ) : List Import :=
  let files := (FileStore.paths models).filter fun file =>
    Text.endsWith ".k" file && Path.isBelow file "models"
  distinct [] ((Dict.sortKeys (files.map Path.parent)).filterMap importOf?)

structure Request where
  name : String
  language : TestLanguage
  endToEnd : Bool
deriving DecidableEq, Repr

def Request.dirName (r : Request) : String := Scaffold.dirName r.name r.endToEnd

/-- The templates of a test, with the files that are made of them. -/
def Request.files (r : Request) : List (String × String) :=
  let main := if r.endToEnd then "e2e" else "compositiontest"
  match r.language with
  | .kcl => [("kcl/" ++ main ++ ".k", "main.k"), ("kcl/kcl.mod", "kcl.mod")]
  | .python =>
    [("python/" ++ main ++ ".py", "main.py"), ("python/requirements.txt", "requirements.txt")]

def importBlock (imports : List Import) : String :=
  String.join (imports.map fun i => "import " ++ i.path ++ " as " ++ i.name ++ "\n")

def namePlaceholder : String := "\x7b\x7bname\x7d\x7d"

def importsPlaceholder : String := "\x7b\x7bimports\x7d\x7d"

def fill (template dirName block : String) : String :=
  Text.replace importsPlaceholder block (Text.replace namePlaceholder dirName template)

def renderFile (templates : Templates) (dirName block : String) (t : FileTree)
    (file : String × String) : Except ScaffoldError FileTree :=
  match templates file.1 with
  | none => .error (.missingTemplate file.1)
  | some template => (FileStore.writeText t file.2 (fill template dirName block)).mapError .file

/-- The files of a new test. -/
def render (templates : Templates) (r : Request) (imports : List Import) :
    Except ScaffoldError FileTree :=
  match problems r.dirName with
  | [] => r.files.foldlM (renderFile templates r.dirName (importBlock imports)) ∅
  | found => .error (.invalidName r.dirName found)

end ResourceModels.Scaffold
