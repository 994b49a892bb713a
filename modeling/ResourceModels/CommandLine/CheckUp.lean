import ResourceModels.CommandLine.Console

/-!
The command that looks whether jobs can be run: whether docker answers, which settings are in force,
and which images are there. On request it removes containers that were left behind.
-/

namespace ResourceModels.CommandLine

structure ImageUse where
  image : String
  purposes : List String
deriving DecidableEq, Repr

/-- Takes up one more use of an image. -/
def addUse (image purpose : String) : List ImageUse → List ImageUse
  | [] => [⟨image, [purpose]⟩]
  | u :: rest =>
    if u.image = image then ⟨image, u.purposes ++ [purpose]⟩ :: rest
    else u :: addUse image purpose rest

def imageUses (found : Settings) : List ImageUse :=
  let models := found.modelOptions
  let tests := found.suiteOptions
  [("kcl models", models.kclImage), ("python models", models.pythonImage),
    ("kcl tests", tests.kclImage), ("python tests", tests.pythonImage)].foldl
      (fun uses (purpose, image) => addUse image purpose uses) []

def sayMarked (mark line : String) : Run Unit := say ("  " ++ mark ++ " " ++ line)

def sayMore (line : String) : Run Unit := say ("     " ++ line)

/-- The last lines, and the exit status. -/
def conclude (sound : Bool) : Run Nat := do
  say ""
  if sound then say "SUCCESS All checks passed!"
  else say "WARNING Some checks failed. See above for details."
  return if sound then 0 else 1

def checkServer : Run Bool := do
  match ← Docker.version with
  | some version =>
    sayMarked "->" ("docker server " ++ version)
    return true
  | none =>
    sayMarked "!!" "docker server (not reachable)"
    sayMore "Is the Docker daemon running?"
    return false

/-- Tells where the settings come from. -/
def saySettings (s : Surroundings) (common : Common) : Run Unit := do
  say ""
  say "Configuration:"
  let file := common.config.or (Settings.userFile? (← get).host s.dir s.environment)
  sayMarked "->" (file.getD "defaults")
  say ""

/-- Whether an image could be looked for. One that is missing is no failure. -/
def checkImage (u : ImageUse) : Run Bool := do
  let purposes := "(" ++ Text.join ", " u.purposes ++ ")"
  match ← (Docker.hasImage u.image).run with
  | .ok true =>
    sayMarked "ok" (u.image ++ " " ++ purposes)
    return true
  | .ok false =>
    sayMarked "!!" (u.image ++ " " ++ purposes)
    sayMore ("Pull it with: docker pull " ++ u.image)
    return true
  | .error e =>
    sayMarked "!!" (u.image ++ " check failed: " ++ Fault.message e)
    return false

def checkImages : List ImageUse → Run Bool
  | [] => return true
  | u :: rest => do
    let first ← checkImage u
    return (← checkImages rest) && first

/-- Removes containers left behind; whether that went well. -/
def reapContainers (found : Settings) : Run Bool := do
  say ""
  say "Containers:"
  match ← (Docker.reap found.dockerOptions).run with
  | .ok 0 =>
    sayMarked "ok" "no orphaned sandbox containers"
    return true
  | .ok count =>
    sayMarked "ok" ("removed " ++ toString count ++ " orphaned sandbox container(s)")
    return true
  | .error e =>
    sayMarked "!!" ("cleanup failed: " ++ Fault.message e)
    return false

/-- Looks whether jobs can be run. -/
def checkUp (s : Surroundings) (common : Common) (name version : String) (reap : Bool) :
    Run Nat := do
  say "Crossgen Doctor"
  say "==============="
  say ""
  let found ← settings s common
  say "Versions:"
  sayMarked "->" (name ++ "-cli v" ++ version)
  if !Docker.isInstalled (← get).host s.dir s.environment then
    sayMarked "!!" ("docker: " ++ Fault.message Sandbox.SandboxError.dockerMissing)
    sayMore "Docker is required to run the KCL and Python generators."
    conclude false
  else
    let reachable ← checkServer
    saySettings s common
    say "Images:"
    let sound ← if reachable then checkImages (imageUses found)
      else do
        sayMarked "!!" "skipped, docker is not reachable"
        pure false
    let sound ← if reap && sound then reapContainers found else pure sound
    conclude sound

end ResourceModels.CommandLine
