import ResourceModels.Decode
import ResourceModels.Docker.Options
import ResourceModels.Host.Path
import ResourceModels.Models
import ResourceModels.Suite

/-!
Settings, and what they mean for generating models, building tests and running containers. A setting
that is not given leaves the default in force, and variables of the environment decide about images.
-/

namespace ResourceModels

structure Settings where
  kclImage : Option String := none
  pythonImage : Option String := none
  pythonTestImage : Option String := none
  exclude : List String := []
  maxFileSize : Option Nat := none
  timeoutSecs : Option Nat := none
  sandboxUid : Option Nat := none
  sandboxGid : Option Nat := none
  cacheDir : Option String := none
  decodeMode : Option DecodeMode := none
deriving DecidableEq, Repr, Inhabited

/-- Why a text gives no settings. -/
inductive SettingsFault
  | malformedText
  | mismatch (cause : Mismatch)
deriving DecidableEq, Repr

/-- The details of a malformed text are not told apart. -/
def SettingsFault.message : SettingsFault → String
  | .malformedText => "<json>"
  | .mismatch cause => cause.message

namespace Settings

open Schema (fieldOf textField) in
def toJson (s : Settings) : Json :=
  let number (name : String) (n : Option Nat) := fieldOf name (n.map fun n => .int n)
  .obj (textField "kclImage" s.kclImage ++ textField "pythonImage" s.pythonImage ++
    textField "pythonTestImage" s.pythonTestImage ++
    (if s.exclude.isEmpty then [] else [("exclude", .ofTexts s.exclude)]) ++
    number "maxFileSize" s.maxFileSize ++ number "timeoutSecs" s.timeoutSecs ++
    number "sandboxUid" s.sandboxUid ++ number "sandboxGid" s.sandboxGid ++
    textField "cacheDir" s.cacheDir ++ textField "decodeMode" (s.decodeMode.map DecodeMode.name))

/-- The value of a variable, unless it is blank. -/
def setting? (environment : String → Option String) (name : String) : Option String :=
  (environment name).filter fun value => Text.trim value ≠ ""

/-- Lets variables of the environment decide about images. -/
def override (s : Settings) (environment : String → Option String) : Settings :=
  { s with
    kclImage := (setting? environment "CROSSGEN_KCL_IMAGE").or s.kclImage
    pythonImage := (setting? environment "CROSSGEN_PYTHON_IMAGE").or s.pythonImage
    pythonTestImage := (setting? environment "CROSSGEN_PYTHON_TEST_IMAGE").or s.pythonTestImage }

def modelOptions (s : Settings) : Models.Options where
  kclImage := s.kclImage.getD Kcl.defaultImage
  pythonImage := s.pythonImage.getD Python.defaultImage
  exclude := s.exclude

def suiteOptions (s : Settings) : Suite.Options :=
  let standard : Suite.Options := {}
  { kclImage := s.kclImage.getD standard.kclImage
    pythonImage := s.pythonTestImage.getD standard.pythonImage
    mode := s.decodeMode.getD standard.mode }

/-- How containers are set up. Without a group, files belong to the group of the user's number. -/
def dockerOptions (s : Settings) : Docker.Options :=
  { maxFileSize := s.maxFileSize.getD Docker.defaultMaxFileSize
    timeout := s.timeoutSecs
    owner := s.sandboxUid.map fun uid => (uid, s.sandboxGid.getD uid) }

/-- Where models are registered, for a project directory. -/
def cacheRoot (s : Settings) (project : String) : String :=
  HostPath.join project (s.cacheDir.getD ".crossgen")

end Settings

/-- What is logged: what the environment asks for, or else debug messages if they are asked for on
the command line. -/
def logDirectives (environment : Option String) (verbose : Bool) : String :=
  match environment.filter fun value => Text.trim value ≠ "" with
  | some value => value
  | none => if verbose then "debug" else "warn"

end ResourceModels
