import ResourceModels.FileTree
import ResourceModels.Text.Printable

/-!
Jobs that run a command over a tree of files in isolation. Whoever runs them gives back the tree as
the command left it; generators only know that there is somebody who does.
-/

namespace ResourceModels.Sandbox

structure Request where
  image : String
  command : List String
  /-- The folder that holds the tree within the working directory. -/
  baseFolder : String := ""
  /-- The directory of the machine that links in the tree are followed from. -/
  hostBase : Option String := none
deriving DecidableEq, Repr, Inhabited

/-- Why a job failed. -/
inductive SandboxError
  | dockerMissing
  | spawn (command cause : String)
  | pull (image text : String)
  | command (command : String) (status : Int) (text : String)
  | exit (status : Int) (logs : String)
  | timeout (seconds : Nat)
  | exitCode (output : String)
  | transfer (cause : FileError)
deriving DecidableEq, Repr

instance : Fault SandboxError where
  code
    | .dockerMissing => "RUNNER_001"
    | .spawn .. => "RUNNER_002"
    | .pull .. => "RUNNER_003"
    | .command .. => "RUNNER_004"
    | .exit .. => "RUNNER_005"
    | .timeout _ => "RUNNER_006"
    | .exitCode _ => "RUNNER_007"
    | .transfer _ => "RUNNER_008"
  category _ := "runner"
  message
    | .dockerMissing =>
      "docker executable not found. Ensure Docker is installed and in PATH, or set DOCKER_PATH " ++
        "environment variable"
    | .spawn command cause => "failed to spawn `docker " ++ command ++ "`: " ++ cause
    | .pull image text => "failed to pull image " ++ image ++ ": " ++ text
    | .command command status text =>
      "`docker " ++ command ++ "` exited with status " ++ toString status ++ ": " ++ text
    | .exit status logs =>
      "container exited with non-zero status: " ++ toString status ++ ", logs: " ++ logs
    | .timeout seconds => "container did not finish within " ++ toString seconds ++ " seconds"
    | .exitCode output => "unexpected output from docker wait: " ++ Text.quoted output
    | .transfer cause => "failed to transfer files: " ++ Fault.message cause
  causes
    | .spawn _ cause => [cause]
    | .transfer cause => Fault.trail cause
    | _ => []

/-- The tree after a job, and whether the job succeeded. A failed job may have changed the tree. -/
structure Outcome where
  tree : FileTree
  result : Except SandboxError Unit

/-- Runs jobs within some context. -/
abbrev Runner (m : Type → Type) := FileTree → Request → m Outcome

end ResourceModels.Sandbox
