import ResourceModels.FileStore
import ResourceModels.FileTree
import ResourceModels.Host.Path
import ResourceModels.Kcl
import ResourceModels.Language
import ResourceModels.TestCase.Document

/-!
Test suites. The program of each test directory is run in a sandbox and has to leave a file with the
test cases; a directory without a program may hold an end-to-end test as it is.
-/

/-!
## Directories of tests

Which directories hold tests. Patterns are given from the project's directory, so the tests folder
is taken off their front; a pattern that names nothing more selects every outermost directory.
-/

namespace ResourceModels.Suite

def relative (testsFolder pattern : String) : String :=
  let rest := Text.trimStart "/" ((Text.after? testsFolder pattern).getD pattern)
  if rest = "" then "*" else rest

variable {σ : Type} [FileStore σ]

/-- Whether a path is a directory whose name begins as those of tests do. -/
def isTestDir (files : σ) (start path : String) : Bool :=
  Text.startsWith start (Path.fileName path) && FileStore.isDir files path

/-- The test directories that one pattern selects. A failure comes with its pattern. -/
def matching (files : σ) (testsFolder start pattern : String) :
    Except (String × FileError) (List String) :=
  match FileStore.glob files (relative testsFolder pattern) with
  | .ok paths => .ok (paths.filter (isTestDir files start))
  | .error cause => .error (pattern, cause)

/-- The test directories that the patterns select, in order and without repetition. -/
def discover (files : σ) (patterns : List String) (testsFolder start : String) :
    Except (String × FileError) (List String) := do
  let found ← patterns.mapM (matching files testsFolder start)
  return Dict.sortKeys found.flatten

end ResourceModels.Suite

/-! ## Building -/

namespace ResourceModels.Suite

open Sandbox

inductive SuiteError
  | discovery (pattern : String) (cause : FileError)
  | render (dir : String) (cause : SandboxError)
  | missingOutput (dir : String)
  | decode (dir : String) (cause : TestCaseError)
  | readEndToEnd (path : String) (cause : FileError)
  | parseEndToEnd (path : String) (cause : TestCaseError)
  | file (cause : FileError)

instance : Fault SuiteError where
  code
    | .discovery .. => "TEST_001"
    | .render .. => "TEST_002"
    | .missingOutput _ => "TEST_003"
    | .decode .. => "TEST_004"
    | .readEndToEnd .. => "TEST_005"
    | .parseEndToEnd .. => "TEST_006"
    | .file _ => "TEST_007"
  category _ := "test"
  message
    | .discovery pattern cause => "failed to discover test directories for pattern '" ++ pattern ++
        "': " ++ Fault.message cause
    | .render dir cause => "failed to run test in '" ++ dir ++ "': " ++ Fault.message cause
    | .missingOutput dir => "failed to read test.yaml in '" ++ dir ++ "'"
    | .decode dir cause => "failed to decode test.yaml in '" ++ dir ++ "': " ++ Fault.message cause
    | .readEndToEnd path cause =>
      "failed to read e2etest file '" ++ path ++ "': " ++ Fault.message cause
    | .parseEndToEnd path cause =>
      "invalid e2etest file '" ++ path ++ "': " ++ Fault.message cause
    | .file cause => Fault.message cause
  causes
    | .discovery _ cause => Fault.trail cause
    | .render _ cause => Fault.trail cause
    | .missingOutput _ => []
    | .decode _ cause => Fault.trail cause
    | .readEndToEnd _ cause => Fault.trail cause
    | .parseEndToEnd _ cause => Fault.trail cause
    | .file cause => Fault.causes cause

structure Options where
  kclImage : String := Kcl.defaultImage
  pythonImage : String := "docker.io/haarchri/python-test:0.9"
  mode : DecodeMode := .lenient
deriving DecidableEq, Repr, Inhabited

def request (options : Options) : TestLanguage → Request
  | .kcl => { image := options.kclImage, command := ["kcl", "run", "-o", "test.yaml"] }
  | .python => { image := options.pythonImage, command := ["python", "-m", "extract_objects"] }

/-- How a suite is built: how the language of a test is told, and which languages can be run. -/
structure Builder where
  identify : FileTree → Option TestLanguage := TestLanguage.identify
  languages : List TestLanguage := TestLanguage.all
  options : Options := {}

/-- Where tests are: the folder as it is written in patterns, how test directories begin, and the
directory of the machine the tests were loaded from. -/
structure Location where
  folder : String
  start : String
  hostRoot : Option String := none

def loadEndToEnd {σ : Type} [FileStore σ] (files : σ) (path : String) :
    Except SuiteError EndToEndTest := do
  let bytes ← (FileStore.read files path).mapError (.readEndToEnd path)
  (EndToEndTest.parse bytes).mapError (.parseEndToEnd path)

def plainTest (tests : FileTree) (dir : String) : Except SuiteError (List TestCase) :=
  let path := Path.join dir "e2etest.yaml"
  if FileStore.isFile tests path then (loadEndToEnd tests path).map fun t => [.endToEnd t]
  else .ok []

/-- Refuses a test case that is not valid, where that is asked for. -/
def checkCase (mode : DecodeMode) (dir : String) (t : TestCase) : Except SuiteError Unit :=
  match t.validate, mode with
  | .error cause, .strict => .error (.decode dir cause)
  | _, _ => .ok ()

/-- The test cases that a program left. -/
def collect (mode : DecodeMode) (dir : String) (t : FileTree) :
    Except SuiteError (List TestCase) := do
  let rendered ← (FileStore.read t "test.yaml").mapError fun _ => SuiteError.missingOutput dir
  let cases ← (TestCase.decode rendered mode).mapError (.decode dir)
  cases.forM (checkCase mode dir)
  return cases

variable {m : Type → Type} [Monad m]

def buildDir (run : Runner m) (b : Builder) (tests : FileTree) (location : Location)
    (dir : String) : m (Except SuiteError (List TestCase)) :=
  match tests.subtree dir with
  | .error cause => return .error (.file cause)
  | .ok t =>
    match b.identify t with
    | none => return plainTest tests dir
    | some language =>
      if language ∈ b.languages then do
        let hostBase := location.hostRoot.map (HostPath.join · dir)
        let outcome ← run t { request b.options language with hostBase }
        match outcome.result with
        | .error cause => return .error (.render dir cause)
        | .ok () => return collect b.options.mode dir outcome.tree
      else return .ok []

/-- The test cases of directories, up to the first that fails. -/
def buildDirs (run : Runner m) (b : Builder) (tests : FileTree) (location : Location) :
    List String → m (Except SuiteError (List TestCase))
  | [] => return .ok []
  | dir :: rest => do
    match ← buildDir run b tests location dir with
    | .error e => return .error e
    | .ok cases => return (← buildDirs run b tests location rest).map (cases ++ ·)

/-- The test cases of all directories that the patterns select. -/
def build (run : Runner m) (b : Builder) (tests : FileTree) (patterns : List String)
    (location : Location) : m (Except SuiteError (List TestCase)) :=
  match discover tests patterns location.folder location.start with
  | .error (pattern, cause) => return .error (.discovery pattern cause)
  | .ok dirs => buildDirs run b tests location dirs

end ResourceModels.Suite
