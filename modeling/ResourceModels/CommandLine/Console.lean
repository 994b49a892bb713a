import ResourceModels.CommandLine.Command
import ResourceModels.Docker
import ResourceModels.Host.Transfer
import ResourceModels.Json.Writing
import ResourceModels.Settings.Reading

/-!
What commands work on: the machine's file system and the text they print. A command that fails keeps
what it has done and printed, and says why with all that the failure comes from.
-/

namespace ResourceModels.CommandLine

/-- A part of what is printed. How long a run took is known only to whoever runs it. -/
inductive Piece
  | text (s : String)
  | elapsed
deriving DecidableEq, Repr

structure Console where
  host : Host
  printed : List Piece := []

/-- Where a command is run: the working directory and the environment. -/
structure Surroundings where
  dir : String
  environment : String → Option String

/-- A failure as it is told: its text, and those of the failures it comes from. -/
structure Failure where
  trail : List String
deriving DecidableEq, Repr

def Failure.text (f : Failure) : String := "error: " ++ Text.join ": " f.trail ++ "\n"

abbrev Run := ExceptT Failure (StateT Console Docker.Session)

def inSession {α : Type} (session : Docker.Session α) : Run α := liftM session

def print (pieces : List Piece) : Run Unit :=
  modify fun c => { c with printed := c.printed ++ pieces }

def say (line : String) : Run Unit := print [.text (line ++ "\n")]

def fail {α : Type} (trail : List String) : Run α := throw ⟨trail⟩

/-- Goes on with a result, or fails with a text in front of the failure. -/
def orFail {ε α : Type} [Fault ε] (text : String) (result : Except ε α) : Run α :=
  match result with
  | .ok a => return a
  | .error e => fail (text :: Fault.trail e)

/-- The project directory, without links. -/
def projectDir (s : Surroundings) (project : String) : Run String := do
  let host := (← get).host
  match if project = "" then .error .notFound else host.canonical (HostPath.join s.dir project) with
  | .ok root => return root
  | .error cause =>
    fail (("Project directory not found: " ++ project) :: cause.message :: cause.causes)

/-- The settings in force, with those that the command line gives. -/
def settings (s : Surroundings) (common : Common) : Run Settings := do
  match Settings.resolve (← get).host s.dir s.environment common.config with
  | .error e => fail (e.message :: e.causes)
  | .ok found => return { found with
      timeoutSecs := common.timeoutSecs.or found.timeoutSecs
      cacheDir := common.cacheDir.or found.cacheDir }

def runner (s : Surroundings) (found : Settings) : Run (Sandbox.Runner Docker.Session) := do
  let host := (← get).host
  if Docker.isInstalled host s.dir s.environment then
    return Docker.runner found.dockerOptions host
  else orFail "Failed to set up sandbox runner" (.error Sandbox.SandboxError.dockerMissing)

/-! Reports as JSON: an object over several lines, with fields in the given order. -/

def field (name : String) (value : List Piece) : List Piece :=
  .text (Json.indent 1 ++ Json.quote name ++ ": ") :: value

def jsonField (name : String) (value : Json) : List Piece :=
  field name [.text (value.prettyAt 1)]

def failureField {ε : Type} [Fault ε] (e : ε) : List Piece :=
  jsonField "error" (.obj [("code", .str (Fault.code e)), ("category", .str (Fault.category e)),
    ("message", .str (Fault.message e))])

def sayReport (fields : List (List Piece)) : Run Unit :=
  print ([.text "\x7b\n"] ++ List.intercalate [.text ",\n"] fields ++ [.text "\n\x7d\n"])

end ResourceModels.CommandLine
