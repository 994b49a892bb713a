import ResourceModels.Archive
import ResourceModels.Docker.Options
import ResourceModels.Docker.Session
import ResourceModels.Host
import ResourceModels.Sandbox
import ResourceModels.Text.Number

/-!
Jobs in docker containers. The tree is copied into a new container, the command is run there, and
the directory that it worked in is copied back. A container that was created is removed last,
whatever happened to the job.
-/

/-!
## Where docker is

Where docker is found: at the path that the environment gives, or else in one of the directories for
programs.
-/

namespace ResourceModels.Docker

/-- Whether a file can be run. -/
def isProgram (h : Host) (path : String) : Bool :=
  match Host.stat h true path with
  | .ok (_, .file _ mode) => mode &&& 0o111 ≠ 0
  | _ => false

/-- Whether docker is there, for a program that runs in a directory. -/
def isInstalled (h : Host) (dir : String) (environment : String → Option String) : Bool :=
  let given := (environment "DOCKER_PATH").any fun path =>
    (Host.stat h true (HostPath.join dir path)).toBool
  given || ((environment "PATH").map (Text.split (· = ':'))).any fun dirs => dirs.any fun d =>
    isProgram h (HostPath.join (HostPath.join dir d) "docker")

end ResourceModels.Docker

/-! ## Jobs -/

namespace ResourceModels.Docker

open Archive (Bytes)
open Sandbox

/-- Steps of a session that can fail. -/
abbrev Steps := ExceptT SandboxError Session

/-- What a call wrote, without the white space around it. -/
def textOf (b : Bytes) : String := Text.trim (Text.lossy b)

/-- Makes a call. No argument can hold a zero character. -/
def call (c : Call) : Steps Finished :=
  if c.arguments.any fun a => a.toList.contains '\x00' then
    throw (.spawn c.command "nul byte found in provided data")
  else ExceptT.mk (.ask c fun a => .done (match a with
    | .finished f => .ok f
    | .unstarted cause => .error (.spawn c.command cause)
    | .late => .error (.timeout (c.limit.getD 0))))

/-- Makes a call that has to succeed. -/
def checked (c : Call) : Steps Finished := do
  let f ← call c
  if f.status = 0 then return f else throw (.command c.command f.status (textOf f.errors))

/-- The version of the server, if it can be reached. -/
def version : Session (Option String) := do
  let arguments := ["version", "--format", "\x7b\x7b.Server.Version\x7d\x7d"]
  match ← (call { arguments }).run with
  | .ok f => return if f.status = 0 then some (textOf f.output) else none
  | .error _ => return none

def hasImage (image : String) : Steps Bool := do
  return (← call { arguments := ["image", "inspect", image] }).status = 0

def pull (image : String) : Steps Unit := do
  let f ← call { arguments := ["pull", image] }
  if f.status ≠ 0 then throw (.pull image (textOf f.errors))

def ensureImage (image : String) : Steps Unit := do
  unless ← hasImage image do pull image

def remove (id : String) : Steps Unit := do
  discard <| checked { arguments := ["rm", "--force", "--volumes", id] }

/-- Removes containers, up to the first that cannot be removed, and counts them. -/
def removeAll : List String → Steps Nat
  | [] => return 0
  | id :: rest => do
    remove id
    return (← removeAll rest) + 1

/-- The containers that a listing names, one on each line. -/
def listed (b : Bytes) : List String :=
  ((Text.lines (Text.lossy b)).map Text.trim).filter (· ≠ "")

/-- Removes the containers that were left behind. -/
def reap (options : Options) : Steps Nat := do
  let f ← checked { arguments := ["ps", "-a", "-q", "--filter", "label=" ++ options.label] }
  removeAll (listed f.output)

def create (options : Options) (r : Request) : Steps String := do
  let f ← checked { arguments :=
    ["create", "--label", options.label, "--workdir", options.inputPath, r.image] ++ r.command }
  return textOf f.output

/-- Waits for a container to end, and gives the exit code of its command. -/
def wait (options : Options) (id : String) : Steps Int := do
  let f ← checked { arguments := ["wait", id], limit := options.timeout }
  match Text.signed? 64 (textOf f.output).toList with
  | some code => return code
  | none => throw (.exitCode (textOf f.output))

/-- What the command in a container wrote. -/
def logs (id : String) : Steps String := do
  let f ← call { arguments := ["logs", id] }
  return Text.trim (Text.lossy f.output ++ Text.lossy f.errors)

/-- Runs the command of a container over an archive of files, and gives the archive of what it
left. -/
def produce (options : Options) (id : String) (input : Bytes) : Steps Bytes := do
  discard <| checked
    { arguments := ["cp", "-", id ++ ":" ++ options.inputPath], input := some input }
  discard <| checked { arguments := ["start", id] }
  let code ← wait options id
  if code ≠ 0 then throw (.exit code (← logs id))
  return (← checked { arguments := ["cp", id ++ ":" ++ options.outputPath, "-"] }).output

/-- How the files of a job are packed. -/
def packOptions (options : Options) (hostBase : Option String) : Archive.PackOptions where
  linkBase := hostBase
  owner := ⟨options.owner.map (·.1), options.owner.map (·.2)⟩

/-- What is done before there is a container: the image is fetched if it is missing, the tree is
packed, and the container is created. -/
def prepare (options : Options) (h : Host) (t : FileTree) (r : Request) :
    Steps (String × Bytes) := do
  ensureImage r.image
  let input ← match Archive.pack h (packOptions options r.hostBase) r.baseFolder t with
    | .ok input => pure input
    | .error cause => throw (.transfer cause)
  return (← create options r, input)

/-- Runs a container and puts what it left into the tree. -/
def runContainer (options : Options) (id : String) (input : Bytes) (t : FileTree) :
    Session Outcome := do
  match ← (produce options id input).run with
  | .error e => return ⟨t, .error e⟩
  | .ok bytes =>
    let (t, count) := Archive.unpack ⟨options.stripStart, options.maxFileSize⟩ bytes t
    return ⟨t, (count.mapError .transfer).map fun _ => ()⟩

/-- The failure of a job counts before that of the removal. -/
def firstFailure (job removal : Except SandboxError Unit) : Except SandboxError Unit :=
  match job with
  | .error e => .error e
  | .ok () => removal

/-- Runs jobs in containers, on a machine with the given file system. -/
def runner (options : Options) (h : Host) : Runner Session := fun t r => do
  match ← (prepare options h t r).run with
  | .error e => return ⟨t, .error e⟩
  | .ok (id, input) =>
    let outcome ← runContainer options id input t
    let removal ← (remove id).run
    return ⟨outcome.tree, firstFailure outcome.result removal⟩

end ResourceModels.Docker
